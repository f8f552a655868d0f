/-
Runs of calls and returns that nest.  The true stack is a list of calls, innermost first;
each return goes to its own call's return address, or past calls that share none with the
one it goes to.
-/
import Playground.Machine.CallEvents

namespace Playground

/-- One call of the true stack, as the call left the machine. -/
structure TrueCall where
  entry : Word
  callPc : Word
  retAddr : Word
  saved : List Word
deriving DecidableEq, Repr

def Activation.view (a : Activation) : TrueCall := ⟨a.entry, a.callPc, a.retAddr, a.saved⟩

/-- One event of a run that nests, and the true stack after it. -/
inductive NestedStep : List TrueCall → CallEvent → List TrueCall → Prop
  | call (st : List TrueCall) (pc target : Word) (regs : Fin 32 → Word) (mem : Memory) :
      NestedStep st (.call pc target true regs mem)
        (⟨target, pc, pc + 4, calleeSaved regs⟩ :: st)
  | library (st : List TrueCall) (pc target : Word) (regs : Fin 32 → Word) (mem : Memory) :
      NestedStep st (.call pc target false regs mem) st
  | comparator (st : List TrueCall) (stubPc target : Word) (regs : Fin 32 → Word) :
      NestedStep st (.runtimeCall stubPc target regs)
        (⟨target, stubPc, regs 30, calleeSaved regs⟩ :: st)
  | ret (top : TrueCall) (rest : List TrueCall) (pc : Word) (step : Nat)
      (regs : Fin 32 → Word) (x0Width : Nat) :
      NestedStep (top :: rest) (.ret pc top.retAddr step regs x0Width) rest
  | skip (skipped : List TrueCall) (frame : TrueCall) (outer : List TrueCall) (pc : Word)
      (step : Nat) (regs : Fin 32 → Word) (x0Width : Nat)
      (hsearch : skipped.length < unwindSearch)
      (hkept : (skipped ++ frame :: outer).length ≤ maxActivations)
      (hinner : ∀ f ∈ skipped, f.retAddr ≠ frame.retAddr) :
      NestedStep (skipped ++ frame :: outer) (.ret pc frame.retAddr step regs x0Width) outer

/-- A run that nests, from the start of the program: the true stack and the recorded
one. -/
inductive NestedRun : List TrueCall → CallStack → Prop
  | start (entry : Word) (regs : Fin 32 → Word) :
      NestedRun [⟨entry, 0, regs 30, calleeSaved regs⟩] (CallStack.start entry regs)
  | event {st st' : List TrueCall} {s : CallStack} {e : CallEvent} (h : NestedRun st s)
      (hstep : NestedStep st e st') (log : Option FrameUndo) : NestedRun st' (e.run s log)

/-- The recorded stack is the outermost part of the true one, the rest is counted, and no
return went astray. -/
structure Mirrors (st : List TrueCall) (s : CallStack) : Prop where
  acts : s.acts.map Activation.view = st.reverse.take maxActivations
  uncounted : s.uncounted = st.length - maxActivations
  badReturn : s.badReturn = default

namespace CallStack

variable {st : List TrueCall} {s : CallStack}

theorem length_acts_of_mirrors (h : Mirrors st s) :
    s.acts.length = min maxActivations st.length := by
  rw [← List.length_map (f := Activation.view), h.acts, List.length_take, List.length_reverse]

theorem depth_of_mirrors (h : Mirrors st s) : s.depth = st.length := by
  have hlen := length_acts_of_mirrors h
  have hrest := h.uncounted
  unfold depth
  omega

/-- A mark is not part of what the true stack says of a call. -/
theorem view_revertMark (entry : Nat × Word × BitVec 8 × Word) (acts : List Activation) :
    (revertMark entry acts).map Activation.view = acts.map Activation.view := by
  unfold revertMark
  apply List.ext_getElem?
  intro i
  rw [List.getElem?_map, List.getElem?_map, List.getElem?_modify]
  cases acts[i]? with
  | none => rfl
  | some a =>
      simp only [Option.map_some]
      split <;> rfl

theorem mirrors_mark (h : Mirrors st s) (record : Word) (flags : BitVec 8) (lastRet : Word)
    (log : Option FrameUndo) : Mirrors st (s.mark record flags lastRet log).1 := by
  unfold mark
  simp only
  split
  · exact h
  · exact ⟨(view_revertMark _ _).trans h.acts, h.uncounted, h.badReturn⟩

theorem mirrors_settleCaller (h : Mirrors st s) (pc sp fp : Word) (mem : Memory)
    (log : Option FrameUndo) : Mirrors st (s.settleCaller pc sp fp mem log).1 := by
  unfold settleCaller
  split
  · simp only
    split
    · exact mirrors_mark h _ _ _ log
    · exact h
  · exact h

theorem take_reverse_cons (call : TrueCall) (st : List TrueCall) (n : Nat) (h : n ≤ st.length) :
    (call :: st).reverse.take n = st.reverse.take n := by
  rw [List.reverse_cons, List.take_append_of_le_length (by simpa using h)]

theorem mirrors_push (h : Mirrors st s) (a : Activation) (x0 : Word) (log : Option FrameUndo) :
    Mirrors (a.view :: st) (s.push a x0 log).1 := by
  have hlen := length_acts_of_mirrors h
  have hrest := h.uncounted
  unfold push onTree
  simp only
  split
  · next hfull =>
      refine ⟨?_, ?_, h.badReturn⟩
      · rw [take_reverse_cons _ _ _ (by omega)]
        exact h.acts
      · simp only [List.length_cons]
        omega
  · next hroom =>
      refine ⟨?_, ?_, h.badReturn⟩
      · have hacts := h.acts
        rw [List.take_of_length_le (by simp; omega)] at hacts
        rw [List.take_of_length_le (by simp; omega), List.reverse_cons, ← hacts]
        simp [Activation.view]
      · simp only [List.length_cons]
        omega

/-- Unwinding removes from the inside. -/
theorem acts_unwind (s : CallStack) (k : Nat) (x0 : Word) (x0Width : Nat)
    (log : Option FrameUndo) :
    (s.unwind k x0 x0Width log).1.acts = s.acts.take (s.acts.length - k) ∧
      (s.unwind k x0 x0Width log).1.uncounted = s.uncounted ∧
      (s.unwind k x0 x0Width log).1.badReturn = s.badReturn := by
  induction k generalizing s log with
  | zero => simp [unwind]
  | succ k ih =>
      unfold unwind
      split
      · next hnone =>
          have hnil : s.acts = [] := List.getLast?_eq_none_iff.mp hnone
          simp [hnil]
      · simp only [onTree]
        obtain ⟨hacts, huncounted, hbad⟩ := ih _ _
        refine ⟨hacts.trans ?_, huncounted, hbad⟩
        simp only [List.dropLast_eq_take, List.length_take, List.take_take]
        congr 1
        omega

/-- Removing as many activations as the true stack loses calls. -/
theorem mirrors_unwind (skipped outer : List TrueCall) (h : Mirrors (skipped ++ outer) s)
    (hkept : (skipped ++ outer).length ≤ maxActivations) (x0 : Word) (x0Width : Nat)
    (log : Option FrameUndo) : Mirrors outer (s.unwind skipped.length x0 x0Width log).1 := by
  obtain ⟨hacts, huncounted, hbad⟩ := acts_unwind s skipped.length x0 x0Width log
  have hlen := length_acts_of_mirrors h
  have hview := h.acts
  rw [List.length_append] at hkept hlen
  refine ⟨?_, ?_, hbad.trans h.badReturn⟩
  · rw [hacts, List.map_take, hview, List.take_take, List.reverse_append,
      List.take_append_of_le_length (by simp; omega),
      List.take_of_length_le (by simp; omega), List.take_of_length_le (by simp; omega)]
  · rw [huncounted, h.uncounted, List.length_append]
    omega

/-- The innermost recorded call, when none is past the cap. -/
theorem acts_reverse_of_mirrors (h : Mirrors st s) (hkept : st.length ≤ maxActivations) :
    s.acts.reverse.map Activation.view = st := by
  rw [List.map_reverse, h.acts, List.take_of_length_le (by simpa using hkept),
    List.reverse_reverse]

theorem mirrors_onReturn_counted {top : TrueCall} {rest : List TrueCall}
    (h : Mirrors (top :: rest) s) (hpast : maxActivations < (top :: rest).length) (pc target : Word)
    (step : Nat) (regs : Fin 32 → Word) (x0Width : Nat) (log : Option FrameUndo) :
    Mirrors rest (s.onReturn pc target step regs x0Width log).1.1 ∧
      (s.onReturn pc target step regs x0Width log).2 = 0 := by
  have hrest := h.uncounted
  rw [List.length_cons] at hpast hrest
  unfold onReturn
  rw [if_pos (by omega)]
  refine ⟨⟨?_, ?_, h.badReturn⟩, rfl⟩
  · rw [← take_reverse_cons top rest _ (by omega)]
    exact h.acts
  · simp only [onTree]
    omega

theorem mirrors_onReturn {top : TrueCall} {rest : List TrueCall}
    (h : Mirrors (top :: rest) s) (hkept : (top :: rest).length ≤ maxActivations) (pc : Word)
    (step : Nat) (regs : Fin 32 → Word) (x0Width : Nat) (log : Option FrameUndo) :
    Mirrors rest (s.onReturn pc top.retAddr step regs x0Width log).1.1 ∧
      (s.onReturn pc top.retAddr step regs x0Width log).2 =
        if top.callPc = 0 then 0 else leftChanged top.saved (calleeSaved regs) := by
  have hrest := h.uncounted
  have hview := acts_reverse_of_mirrors h hkept
  obtain ⟨a, tail, hacts, rfl, -⟩ := List.map_eq_cons_iff.mp hview
  unfold onReturn
  rw [if_neg (by omega), hacts]
  simp only
  rw [if_pos (by rfl)]
  refine ⟨?_, rfl⟩
  exact mirrors_unwind [a.view] rest h hkept _ _ _

theorem mirrors_onReturn_skip {skipped outer : List TrueCall} {frame : TrueCall}
    (h : Mirrors (skipped ++ frame :: outer) s) (hsearch : skipped.length < unwindSearch)
    (hkept : (skipped ++ frame :: outer).length ≤ maxActivations)
    (hinner : ∀ f ∈ skipped, f.retAddr ≠ frame.retAddr) (pc : Word) (step : Nat)
    (regs : Fin 32 → Word) (x0Width : Nat) (log : Option FrameUndo) :
    Mirrors outer (s.onReturn pc frame.retAddr step regs x0Width log).1.1 := by
  cases skipped with
  | nil => exact (mirrors_onReturn h hkept pc step regs x0Width log).1
  | cons top skipped =>
      have hrest := h.uncounted
      have hview := acts_reverse_of_mirrors h hkept
      obtain ⟨inner, remaining, hacts, hinnerView, hremaining⟩ := List.map_eq_append_iff.mp hview
      obtain ⟨f, tail, rfl, rfl, -⟩ := List.map_eq_cons_iff.mp hremaining
      obtain ⟨a, inner, rfl, rfl, hskipped⟩ := List.map_eq_cons_iff.mp hinnerView
      have hlen : (a :: inner).length = (a.view :: skipped).length := by
        rw [← hinnerView, List.length_map]
      have hfind : (s.acts.reverse.take unwindSearch).findIdx?
          (fun act => decide (act.retAddr = f.view.retAddr)) = some (a :: inner).length := by
        rw [hacts, List.findIdx?_eq_some_iff_getElem]
        refine ⟨?_, ?_, ?_⟩
        · simp only [List.length_take, List.length_append, List.length_cons] at hlen hsearch ⊢
          omega
        · simp [Activation.view]
        · intro j hj
          have hbound : j < ((a :: inner) ++ f :: tail).length := by
            simp at hj ⊢
            omega
          have hmem : ((a :: inner) ++ f :: tail)[j] ∈ a :: inner := by
            rw [List.getElem_append_left hj]
            exact List.getElem_mem hj
          have hne := hinner _ (hinnerView ▸ List.mem_map_of_mem hmem)
          simpa [List.getElem_take, Activation.view] using hne
      have htop : a.retAddr ≠ f.view.retAddr := hinner a.view List.mem_cons_self
      unfold onReturn
      rw [if_neg (by omega), hfind, hacts]
      simp only [List.cons_append]
      rw [if_neg htop]
      simp only
      have hsplit : a.view :: skipped ++ f.view :: outer =
          (a.view :: skipped ++ [f.view]) ++ outer := by simp
      rw [hsplit] at h hkept
      have hunwound :=
        mirrors_unwind (a.view :: skipped ++ [f.view]) outer h hkept (regs 0) x0Width log
      have hcount : (a.view :: skipped ++ [f.view]).length = (a :: inner).length + 1 := by
        rw [List.length_append, hlen]
        rfl
      rw [hcount] at hunwound
      exact hunwound

theorem mirrors_start (entry : Word) (regs : Fin 32 → Word) :
    Mirrors [⟨entry, 0, regs 30, calleeSaved regs⟩] (start entry regs) := by
  refine ⟨?_, ?_, rfl⟩
  · rw [List.take_of_length_le (show 1 ≤ maxActivations by decide)]
    rfl
  · exact (Nat.sub_eq_zero_of_le (show 1 ≤ maxActivations by decide)).symm

theorem mirrors_event {st' : List TrueCall} {e : CallEvent} (h : Mirrors st s)
    (hstep : NestedStep st e st') (log : Option FrameUndo) : Mirrors st' (e.run s log) := by
  cases hstep with
  | call _ pc target regs mem =>
      have hsettled := mirrors_settleCaller h pc (regs 31) (regs 29) mem log
      exact mirrors_push hsettled { (default : Activation) with
        entry := target, callPc := pc, retAddr := pc + 4, spEntry := regs 31
        fpEntry := regs 29, saved := calleeSaved regs } (regs 0) _
  | library _ pc target regs mem => exact mirrors_settleCaller h pc (regs 31) (regs 29) mem log
  | comparator _ stubPc target regs =>
      exact mirrors_push h { (default : Activation) with
        entry := target, callPc := stubPc, retAddr := regs 30, spEntry := regs 31
        fpEntry := regs 29, saved := calleeSaved regs, flags := runtimeCall } (regs 0) log
  | ret top _ pc step regs x0Width =>
      by_cases hkept : (top :: st').length ≤ maxActivations
      · exact (mirrors_onReturn h hkept pc step regs x0Width log).1
      · exact (mirrors_onReturn_counted h (by omega) pc _ step regs x0Width log).1
  | skip skipped frame _ pc step regs x0Width hsearch hkept hinner =>
      exact mirrors_onReturn_skip h hsearch hkept hinner pc step regs x0Width log

theorem mirrors_of_nestedRun (h : NestedRun st s) : Mirrors st s := by
  induction h with
  | start entry regs => exact mirrors_start entry regs
  | event _ hstep log ih => exact mirrors_event ih hstep log

section LeftChanged

/-- Setting bits 19 and up for the indices that differ. -/
theorem getLsbD_foldl_changed (differs : Nat → Bool) (indices : List Nat) (mask : BitVec 32)
    (hindices : ∀ j ∈ indices, j < 10) (k : Nat) :
    (indices.foldl (fun mask j => if differs j then mask ||| (1#32 <<< (19 + j)) else mask)
      mask).getLsbD k = true ↔
      mask.getLsbD k = true ∨ ∃ j ∈ indices, k = 19 + j ∧ differs j = true := by
  induction indices generalizing mask with
  | nil => simp
  | cons j indices ih =>
      have hj := hindices j List.mem_cons_self
      have hbit : (1#32 <<< (19 + j)).getLsbD k = true ↔ k = 19 + j := by
        simp only [BitVec.getLsbD_shiftLeft, BitVec.getLsbD_one, Bool.and_eq_true,
          decide_eq_true_eq, Bool.not_eq_true', decide_eq_false_iff_not]
        omega
      rw [List.foldl_cons, ih _ fun i hi => hindices i (List.mem_cons_of_mem j hi)]
      by_cases hd : differs j = true
      · rw [if_pos hd, BitVec.getLsbD_or, Bool.or_eq_true, hbit]
        simp only [List.mem_cons, exists_eq_or_imp, hd, and_true, or_assoc]
      · rw [if_neg hd]
        simp only [List.mem_cons, exists_eq_or_imp, hd, Bool.false_eq_true, and_false, false_or]

/-- The mask has a bit for exactly the registers whose value differs. -/
theorem getLsbD_leftChanged (saved now : List Word) (k : Nat) :
    (leftChanged saved now).getLsbD k = true ↔
      ∃ j < 10, k = 19 + j ∧ now.getD j 0 ≠ saved.getD j 0 := by
  have hfold := getLsbD_foldl_changed (fun j => decide (now.getD j 0 ≠ saved.getD j 0))
    (List.range 10) 0 (fun j hj => List.mem_range.mp hj) k
  simp only [decide_eq_true_eq, BitVec.ofNat_eq_ofNat, BitVec.getLsbD_zero, Bool.false_eq_true,
    false_or, List.mem_range] at hfold
  exact hfold

end LeftChanged

/-- What a return in step with its call reports: the callee-saved registers left changed,
none for main and none past the cap. -/
theorem report_onReturn {top : TrueCall} {rest : List TrueCall} (h : Mirrors (top :: rest) s)
    (pc : Word) (step : Nat) (regs : Fin 32 → Word) (x0Width : Nat) (log : Option FrameUndo)
    (k : Nat) :
    (s.onReturn pc top.retAddr step regs x0Width log).2.getLsbD k = true ↔
      (top :: rest).length ≤ maxActivations ∧ top.callPc ≠ 0 ∧
        ∃ j < 10, k = 19 + j ∧ (calleeSaved regs).getD j 0 ≠ top.saved.getD j 0 := by
  by_cases hkept : (top :: rest).length ≤ maxActivations
  · rw [(mirrors_onReturn h hkept pc step regs x0Width log).2]
    by_cases hmain : top.callPc = 0
    · simp [hmain]
    · rw [if_neg hmain, getLsbD_leftChanged]
      simp only [hkept, hmain, true_and, ne_eq, not_false_eq_true]
  · rw [(mirrors_onReturn_counted h (by omega) pc _ step regs x0Width log).2]
    simp only [hkept, false_and, iff_false]
    simp

/-- A run that nests is tracked exactly: depth, recorded calls and reports. -/
theorem nestedRun_tracked (h : NestedRun st s) :
    s.depth = st.length ∧
      s.acts.map Activation.view = st.reverse.take maxActivations ∧
      s.badReturn = default ∧
      ∀ top rest, st = top :: rest → ∀ pc step regs x0Width log k,
        (s.onReturn pc top.retAddr step regs x0Width log).2.getLsbD k = true ↔
          st.length ≤ maxActivations ∧ top.callPc ≠ 0 ∧
            ∃ j < 10, k = 19 + j ∧ (calleeSaved regs).getD j 0 ≠ top.saved.getD j 0 := by
  have hmirrors := mirrors_of_nestedRun h
  refine ⟨depth_of_mirrors hmirrors, hmirrors.acts, hmirrors.badReturn, ?_⟩
  rintro top rest rfl pc step regs x0Width log k
  exact report_onReturn hmirrors pc step regs x0Width log k

def mainCall : TrueCall := ⟨0x400000, 0, 7, calleeSaved (flatRegs 7)⟩

def outerCall : TrueCall := ⟨0x400100, 0x400008, 0x40000C, calleeSaved (flatRegs 7)⟩

def innerCall : TrueCall := ⟨0x400100, 0x400108, 0x40010C, calleeSaved (flatRegs 7)⟩

/-- Up to the comparator's return the run is six calls deep. -/
theorem nestedRun_deep : NestedRun (List.replicate 5 innerCall ++ [outerCall, mainCall])
    ((start 0x400000 (flatRegs 7)).runAll (foldedEvents.take 9)) := by
  have houter := NestedRun.event (NestedRun.start 0x400000 (flatRegs 7))
    (.call _ 0x400008 0x400100 (flatRegs 7) Memory.new) none
  have hinner : ∀ n, NestedRun (List.replicate n innerCall ++ [outerCall, mainCall])
      ((start 0x400000 (flatRegs 7)).runAll
        (.call 0x400008 0x400100 true (flatRegs 7) Memory.new ::
          List.replicate n (.call 0x400108 0x400100 true (flatRegs 7) Memory.new))) := by
    intro n
    induction n with
    | zero => exact houter
    | succ n ih =>
        have hevents := congrArg
          (CallEvent.call 0x400008 0x400100 true (flatRegs 7) Memory.new :: ·)
          (@List.replicate_succ' n _
            (CallEvent.call 0x400108 0x400100 true (flatRegs 7) Memory.new))
        simp only [← List.cons_append] at hevents
        rw [hevents, runAll_concat]
        exact NestedRun.event ih (.call _ 0x400108 0x400100 (flatRegs 7) Memory.new) none
  have hlibrary := NestedRun.event (hinner 5)
    (.library _ 0x40010C 0x500000 (flatRegs 7) Memory.new) none
  have hcomparator := NestedRun.event hlibrary
    (.comparator _ 0x600000 0x400200 (flatRegs 0x600004)) none
  exact NestedRun.event hcomparator (.ret _ _ 0x400204 20 (flatRegs 7) 8) none

/-- Six calls deep a return with the registers changed reports the first of them; a return and
a skip of four calls lead back to main. -/
theorem nestedRun_tracked_folded :
    ((start 0x400000 (flatRegs 7)).runAll (foldedEvents.take 9)).depth = 7 ∧
    (((start 0x400000 (flatRegs 7)).runAll (foldedEvents.take 9)).onReturn 0x400110 0x40010C 21
      (flatRegs 8) 8 none).2.getLsbD 19 = true ∧
    NestedRun [mainCall] ((start 0x400000 (flatRegs 7)).runAll foldedEvents) ∧
    ((start 0x400000 (flatRegs 7)).runAll foldedEvents).depth = 1 := by
  obtain ⟨hdepth, -, -, hreport⟩ := nestedRun_tracked nestedRun_deep
  have hreturned := NestedRun.event nestedRun_deep
    (.ret innerCall _ 0x400110 21 (flatRegs 7) 8) none
  have hskipped := NestedRun.event hreturned (.skip (List.replicate 4 innerCall) outerCall
    [mainCall] 0x400110 22 (flatRegs 7) 8 (by decide) (by decide) (by decide)) none
  refine ⟨hdepth, ?_, hskipped, (nestedRun_tracked hskipped).1⟩
  exact (hreport innerCall _ rfl 0x400110 21 (flatRegs 8) 8 none 19).mpr
    ⟨by decide, by decide, 0, by decide, rfl, by decide⟩

/-- Calls from one place, `n` of them inside main. -/
def recursion (n : Nat) : List TrueCall :=
  List.replicate n ⟨0x400100, 0x400104, 0x400108, calleeSaved (flatRegs 7)⟩ ++
    [⟨0x400000, 0, 7, calleeSaved (flatRegs 7)⟩]

theorem nestedRun_recursion (n : Nat) : ∃ s, NestedRun (recursion n) s := by
  induction n with
  | zero => exact ⟨_, .start 0x400000 (flatRegs 7)⟩
  | succ n ih =>
      obtain ⟨s, hs⟩ := ih
      exact ⟨_, .event hs (.call _ 0x400104 0x400100 (flatRegs 7) Memory.new) none⟩

/-- A return past a call that shares its return address, or past calls beyond the cap,
pops one call only; and one from a call made at address 0 reports nothing. -/
theorem not_tracked_skip :
    (∃ s, NestedRun (recursion 2) s ∧
      ¬ Mirrors (recursion 0) (s.onReturn 0x400200 0x400108 9 (flatRegs 7) 8 none).1.1) ∧
    (∃ s, NestedRun (⟨0x400300, 0x400110, 0x400114, calleeSaved (flatRegs 7)⟩ ::
        recursion maxActivations) s ∧
      ¬ Mirrors (recursion (maxActivations - 1))
        (s.onReturn 0x400304 0x400108 9 (flatRegs 7) 8 none).1.1) ∧
    (∃ s, NestedRun (⟨0x400300, 0, 4, calleeSaved (flatRegs 7)⟩ :: recursion 0) s ∧
      (s.onReturn 0x400304 4 9 (flatRegs 8) 8 none).2 = 0) := by
  refine ⟨?_, ?_, ?_⟩
  · obtain ⟨s, hs⟩ := nestedRun_recursion 2
    refine ⟨s, hs, fun hbad => ?_⟩
    have hmirrors : Mirrors (⟨0x400100, 0x400104, 0x400108, calleeSaved (flatRegs 7)⟩ ::
        recursion 1) s := mirrors_of_nestedRun hs
    have hone := (mirrors_onReturn hmirrors (show 3 ≤ 16384 by decide) 0x400200 9
      (flatRegs 7) 8 none).1
    have hdepth := (depth_of_mirrors hone).symm.trans (depth_of_mirrors hbad)
    exact absurd hdepth (show ¬ 2 = 1 by decide)
  · obtain ⟨s, hs⟩ := nestedRun_recursion maxActivations
    have hrun := NestedRun.event hs (.call _ 0x400110 0x400300 (flatRegs 7) Memory.new) none
    refine ⟨_, hrun, fun hbad => ?_⟩
    have hlen : ∀ n, (recursion n).length = n + 1 := by
      intro n
      simp [recursion]
    have hone := (mirrors_onReturn_counted (mirrors_of_nestedRun hrun)
      (by rw [List.length_cons, hlen]; omega) 0x400304 0x400108 9 (flatRegs 7) 8 none).1
    have hdepth := (depth_of_mirrors hone).symm.trans (depth_of_mirrors hbad)
    rw [hlen, hlen] at hdepth
    have hcap : maxActivations ≠ 0 := by decide
    omega
  · obtain ⟨s, hs⟩ := nestedRun_recursion 0
    have hrun := NestedRun.event hs (.call _ 0 0x400300 (flatRegs 7) Memory.new) none
    refine ⟨_, hrun, ?_⟩
    exact (mirrors_onReturn (mirrors_of_nestedRun hrun) (show 2 ≤ 16384 by decide) 0x400304 9
      (flatRegs 8) 8 none).2

end CallStack

end Playground
