/-
`qsort` and the program's comparator together: from the call until it returns, the array is
sorted by the order the comparator answers by.
-/
import Playground.Hosted.Qsort

namespace Playground

namespace Hosted

open Exec Memory BinaryInsertion

def dispatchStub (stub : Stub HostOutcome) (pc : Word) (closed : Bool) (side : HostSide)
    (m : Machine) : Machine × HostSide × Except EmuError HostOutcome :=
  stub.run (enter pc side) closed m

/-- A stub from what a dispatch came to until it returns: how many comparator calls it makes,
and the state it returns in. -/
inductive Calls (stub : Stub HostOutcome) (pc : Word) (closed : Bool) (comparator : Comparator) :
    Machine × HostSide × Except EmuError HostOutcome → Nat → HostSide → Machine → Prop
  | returned (m : Machine) (side : HostSide) :
      Calls stub pc closed comparator (m, side, .ok .continue) 0 side m
  | asked {m : Machine} {side : HostSide} {target : Word} {n : Nat} {side' : HostSide}
      {m' : Machine}
      (h : Calls stub pc closed comparator
        (dispatchStub stub pc closed (comparator.answer target side m).1
          (comparator.answer target side m).2) n side' m') :
      Calls stub pc closed comparator (m, side, .ok (.call target)) (n + 1) side' m'

namespace Sorting

/-- A state that differs in the array, the link register, the first two arguments, the pc and
the jobs at most. -/
structure Rearranged (s : Sorting) (side : HostSide) (m : Machine) (side' : HostSide)
    (m' : Machine) : Prop where
  rest : Undisturbed side m side' { m' with mem := m.mem }
  array : s.Outside m.mem m'.mem

/-- The state the comparator is entered in to compare two elements. -/
structure Entry (s : Sorting) (i j : Nat) (m : Machine) : Prop where
  pc : m.regs.pc = s.target
  left : m.regs.gprValue 0 true = s.element i
  right : m.regs.gprValue 1 true = s.element j
  lr : m.regs.gprValue 30 true = s.pc

/-- What the comparator comes back with: its answer goes by the order of the two elements'
bytes, the array stands as it did, and it is back on the stub with no job of its own left. -/
structure Answer (s : Sorting) (order : List Byte → List Byte → Int) (i j : Nat)
    (side : HostSide) (m : Machine) (side' : HostSide) (m' : Machine) : Prop where
  less : asI32 (m'.regs.gprValue 0 false) < 0 ↔
    order (s.bytesAt m.mem.pages i) (s.bytesAt m.mem.pages j) < 0
  array : s.elements m'.mem.pages = s.elements m.mem.pages
  keeps : ∀ base ∈ m.mem.pages, base ∈ m'.mem.pages
  lr : m'.regs.gprValue 30 true = s.pc
  jobs : side'.callbacks.jobs = side.callbacks.jobs

/-- A comparator that answers for every two elements, and keeps what it relies on. -/
def Answers (s : Sorting) (inv : HostSide → Machine → Prop)
    (order : List Byte → List Byte → Int) (comparator : Comparator) : Prop :=
  ∀ i < s.count, ∀ j < s.count, ∀ side m, inv side m → s.Entry i j m →
    inv (comparator side m).1 (comparator side m).2 ∧
    s.Answer order i j side m (comparator side m).1 (comparator side m).2

/-- The registers and the jobs of a fresh call. -/
structure Called (s : Sorting) (side : HostSide) (m : Machine) : Prop where
  base : m.regs.gprValue 0 true = s.base
  count : (m.regs.gprValue 1 true).toNat = s.count
  size : (m.regs.gprValue 2 true).toNat = s.size
  target : m.regs.gprValue 3 true = s.target
  caller : m.regs.gprValue 30 true = s.caller
  jobs : side.callbacks.jobs = s.jobs

/-- The call comes from the program, not from a sort's own comparator. -/
def Fresh (s : Sorting) : Prop := s.caller = s.pc → ∀ job ∈ s.jobs.getLast?, job.search = true

/-- The state a call returns in. -/
structure Ends (s : Sorting) (inv : HostSide → Machine → Prop) (sorted : List (List Byte))
    (side : HostSide) (m : Machine) : Prop where
  elements : s.elements m.mem.pages = sorted
  caller : m.regs.gprValue 30 true = s.caller
  jobs : side.callbacks.jobs = s.jobs
  inv : inv side m

variable {s : Sorting} {side side₁ side₂ : HostSide} {m m₁ m₂ : Machine}

namespace Rearranged

theorem of_undisturbed (h : Undisturbed side m side₁ m₁) : s.Rearranged side m side₁ m₁ := by
  refine ⟨⟨h.side, rfl, h.heap, h.gpr, h.fpr, h.sp, h.nzcv⟩, ?_⟩
  rw [h.mem]
  exact .refl _

end Rearranged

/-- The comparator is handed the two elements and the stub to return to. -/
theorem entry_handOver (r : RegisterFile) (mem : Memory) (heap : HeapState) (i j : Nat) :
    s.Entry i j ⟨(handOver (s.element i) (s.element j) s.pc r).writePc s.target, mem, heap⟩ where
  pc := rfl
  left := (gprValue_writeGpr_of_ne _ s.pc true (by decide) (by decide)).trans
    ((gprValue_writeGpr_of_ne _ (s.element j) true (by decide) (by decide)).trans
      (gprValue_writeGpr_same r (s.element i) (by decide)))
  right := (gprValue_writeGpr_of_ne _ s.pc true (by decide) (by decide)).trans
    (gprValue_writeGpr_same _ (s.element j) (by decide))
  lr := gprValue_writeGpr_same _ s.pc (by decide)

section Steps

variable {inv : HostSide → Machine → Prop} {order : List Byte → List Byte → Int}
  {comparator : Comparator} (closed : Bool) {next lo hi : Nat}

theorem goOn_ask (h : lo < hi) : goOn (s.job next lo hi) =
    compare (s.job next lo hi) (s.element next) (s.element (lo + (hi - lo) / 2)) := by
  rw [goOn, if_pos (show (s.job next lo hi).lo < (s.job next lo hi).hi from h)]
  rfl

/-- With one place left the element goes there, and the next one is taken up. -/
theorem run_goOn_place (h : ¬ lo < hi) {mem' : Memory}
    (hinsert : (insert (s.job next lo hi)).run m = (⟨m.regs, mem', m.heap⟩, .ok ())) :
    (goOn (s.job next lo hi)).run side closed m =
      (if s.count ≤ next + 1 then finish (s.job (next + 1) 0 (next + 1)) 0
        else goOn (s.job (next + 1) 0 (next + 1))).run
        { side with callbacks := side.callbacks.update (s.job (next + 1) 0 (next + 1)) } closed
        ⟨m.regs, mem', m.heap⟩ := by
  have hlifted : (liftM (insert (s.job next lo hi)) : Stub Unit).run side closed m =
      (⟨m.regs, mem', m.heap⟩, side, .ok ()) := by
    rw [Stub.run_liftM, hinsert]
  rw [goOn, if_neg (show ¬ (s.job next lo hi).lo < (s.job next lo hi).hi from h),
    Stub.run_bind_ok hlifted]
  simp only
  rw [modifyCallbacks, Stub.run_bind, Stub.run_modify]
  simp only
  by_cases hlast : s.count ≤ next + 1
  · have hlast' : (s.job next lo hi).count ≤ (s.job next lo hi).next + 1 := hlast
    rw [dif_pos hlast', if_pos hlast]
    rfl
  · have hlast' : ¬ (s.job next lo hi).count ≤ (s.job next lo hi).next + 1 := hlast
    rw [dif_neg hlast', if_neg hlast]
    rfl

/-- The stub goes on with the job it kept, by the answer. -/
theorem run_dispatch_resumed (hlr : m.regs.gprValue 30 true = s.pc)
    (hjobs : side.callbacks.jobs = s.jobs ++ [s.job next lo hi]) :
    ∃ regs, regs.values = m.regs.values ∧
      dispatchStub qsort s.pc closed side m =
        if asI32 (m.regs.gprValue 0 false) < 0 then
          (goOn (s.job next lo (lo + (hi - lo) / 2))).run
            { side with callbacks := ⟨s.pc, s.jobs ++ [s.job next lo (lo + (hi - lo) / 2)]⟩ } closed
            ⟨regs, m.mem, m.heap⟩
        else
          (goOn (s.job next (lo + (hi - lo) / 2 + 1) hi)).run
            { side with callbacks :=
              ⟨s.pc, s.jobs ++ [s.job next (lo + (hi - lo) / 2 + 1) hi]⟩ } closed
            ⟨regs, m.mem, m.heap⟩ := by
  obtain ⟨hvalues, hx0⟩ := values_returned m.regs
  refine ⟨_, hvalues, ?_⟩
  have hupdate := @update_enter s.pc side _ _ hjobs
  rw [dispatchStub, qsort, Stub.run_bind_ok (run_resuming_returned false closed hlr hjobs rfl)]
  simp only
  rw [resumeSort, Stub.run_bind, Stub.run_liftM, run_readGpr]
  simp only [hx0]
  by_cases hneg : asI32 (m.regs.gprValue 0 false) < 0
  · rw [if_pos hneg, if_pos hneg, modifyCallbacks, Stub.run_bind, Stub.run_modify, hupdate]
    rfl
  · rw [if_neg hneg, if_neg hneg, modifyCallbacks, Stub.run_bind, Stub.run_modify, hupdate]
    rfl

/-- The last element is in its place, and the call returns. -/
theorem calls_finish (hinv : ∀ side m side' m', s.Rearranged side m side' m' → inv side m →
      inv side' m') (hjobs : side.callbacks.jobs = s.jobs ++ [s.job next lo hi])
    (hm : inv side m) :
    ∃ side' m', Calls qsort s.pc closed comparator
        ((finish (s.job next lo hi) 0).run side closed m) 0 side' m' ∧
      s.Ends inv (s.elements m.mem.pages) side' m' := by
  have hquiet := Quiet.finish (s.job next lo hi) 0 side closed m
  rw [run_finish] at hquiet ⊢
  refine ⟨_, _, .returned _ _, rfl, handBack_lr _ _ _, ?_, hinv _ _ _ _ (.of_undisturbed hquiet) hm⟩
  show side.callbacks.jobs.dropLast = s.jobs
  rw [hjobs, List.dropLast_concat]

/-- A question goes to the comparator, which comes back to the stub with its answer. -/
theorem calls_ask (hinv : ∀ side m side' m', s.Rearranged side m side' m' → inv side m →
      inv side' m') (hanswers : s.Answers inv order comparator) (hlt : lo < hi) (hhi : hi ≤ next)
    (hnext : next < s.count) (hcallbacks : side.callbacks = ⟨s.pc, s.jobs ++ [s.job next lo hi]⟩)
    (hm : inv side m) :
    ∃ side' m', inv side' m' ∧
      s.Answer order next (lo + (hi - lo) / 2) side m side' m' ∧
      ∀ n side₁ m₁, Calls qsort s.pc closed comparator (dispatchStub qsort s.pc closed side' m') n
          side₁ m₁ →
        Calls qsort s.pc closed comparator ((goOn (s.job next lo hi)).run side closed m) (n + 1)
          side₁ m₁ := by
  have hquiet := Quiet.compare (s.job next lo hi) (s.element next) (s.element (lo + (hi - lo) / 2))
    side closed m
  have hrun : (goOn (s.job next lo hi)).run side closed m =
      (⟨handOver (s.element next) (s.element (lo + (hi - lo) / 2)) s.pc m.regs, m.mem, m.heap⟩,
        side, .ok (.call s.target)) := by
    rw [goOn_ask hlt, run_compare, hcallbacks]
    rfl
  rw [← goOn_ask hlt, hrun] at hquiet
  rw [hrun]
  have hentered : Undisturbed side m side
      ⟨(handOver (s.element next) (s.element (lo + (hi - lo) / 2)) s.pc m.regs).writePc s.target,
        m.mem, m.heap⟩ :=
    hquiet.trans ⟨rfl, rfl, rfl, fun _ _ _ _ => rfl, rfl, rfl, rfl⟩
  obtain ⟨hafter, hanswer⟩ := hanswers next hnext (lo + (hi - lo) / 2) (by omega) side _
    (hinv _ _ _ _ (.of_undisturbed hentered) hm) (entry_handOver m.regs m.mem m.heap _ _)
  exact ⟨_, _, hafter, ⟨hanswer.less, hanswer.array, hanswer.keeps, hanswer.lr, hanswer.jobs⟩,
    fun n side₁ m₁ h => .asked h⟩

section Search

variable {run rest : List (List Byte)} {x : List Byte} {n : Nat} {sorted : List (List Byte)}

theorem getElem?_elements {p : Pages} {i : Nat} (hi : i < s.count) :
    (s.elements p)[i]? = some (s.bytesAt p i) := by
  rw [elements, List.getElem?_map, List.getElem?_range hi]
  rfl

/-- What the comparator is asked is what the place of the element goes by. -/
theorem answers_of_elements {p : Pages} {i : Nat} (hnext : run.length < s.count)
    (helements : s.elements p = run ++ x :: rest) (hi : i < run.length) :
    answers order run x i = order (s.bytesAt p run.length) (s.bytesAt p i) := by
  have hx : some (s.bytesAt p run.length) = some x := by
    rw [← getElem?_elements hnext, helements, List.getElem?_append_right le_rfl, Nat.sub_self]
    rfl
  have hi' : run[i]? = some (s.bytesAt p i) := by
    rw [← getElem?_elements (hi.trans hnext), helements, List.getElem?_append_left hi]
  rw [answers, hi', Option.some.inj hx]
  rfl

/-- The place of an element is searched for, and the call goes on from where the element is in
its place. -/
theorem calls_search (hinv : ∀ side m side' m', s.Rearranged side m side' m' → inv side m →
      inv side' m') (hanswers : s.Answers inv order comparator) (hfits : s.Fits)
    (hnext : run.length < s.count) (hle : lo ≤ hi) (hhi : hi ≤ run.length)
    (hgoes : ∀ side m, s.elements m.mem.pages =
        run.take (bound (answers order run x) lo hi).1 ++
          x :: run.drop (bound (answers order run x) lo hi).1 ++ rest →
      side.callbacks = ⟨s.pc, s.jobs ++ [s.job (run.length + 1) 0 (run.length + 1)]⟩ →
      s.Resident m.mem → inv side m →
      ∃ side' m', Calls qsort s.pc closed comparator
        ((if s.count ≤ run.length + 1 then finish (s.job (run.length + 1) 0 (run.length + 1)) 0
          else goOn (s.job (run.length + 1) 0 (run.length + 1))).run side closed m) n side' m' ∧
        s.Ends inv sorted side' m')
    (helements : s.elements m.mem.pages = run ++ x :: rest)
    (hcallbacks : side.callbacks = ⟨s.pc, s.jobs ++ [s.job run.length lo hi]⟩)
    (hres : s.Resident m.mem) (hm : inv side m) :
    ∃ side' m', Calls qsort s.pc closed comparator
        ((goOn (s.job run.length lo hi)).run side closed m)
        ((bound (answers order run x) lo hi).2 + n) side' m' ∧ s.Ends inv sorted side' m' := by
  have hquiet : ∀ (side : HostSide) (m : Machine) (callbacks : CallbackState)
      (regs : RegisterFile), regs.values = m.regs.values → inv side m →
      inv { side with callbacks := callbacks } ⟨regs, m.mem, m.heap⟩ :=
    fun side m callbacks regs hvalues => hinv _ _ _ _
      (.of_undisturbed ((Undisturbed.of_values hvalues).trans (.callbacks side callbacks _)))
  induction lo, hi using bound_induction (answers order run x) generalizing side m with
  | empty lo hi hempty =>
      obtain ⟨mem', hinsert, houtside, hbytes⟩ :=
        @run_insert s _ lo hi m hfits hres (hle.trans hhi) hnext
      rw [bound_empty hempty] at hgoes ⊢
      rw [run_goOn_place closed hempty hinsert, Nat.zero_add]
      have hupdate : side.callbacks.update (s.job (run.length + 1) 0 (run.length + 1)) =
          ⟨s.pc, s.jobs ++ [s.job (run.length + 1) 0 (run.length + 1)]⟩ := by
        rw [hcallbacks]
        show (⟨s.pc, (s.jobs ++ [_]).dropLast ++ [_]⟩ : CallbackState) = _
        rw [List.dropLast_concat]
      rw [hupdate]
      have hplaced : s.Rearranged side m
          { side with callbacks := ⟨s.pc, s.jobs ++ [s.job (run.length + 1) 0 (run.length + 1)]⟩ }
          ⟨m.regs, mem', m.heap⟩ := ⟨.callbacks side _ m, houtside⟩
      exact hgoes _ _ (elements_insert helements (hle.trans hhi) hbytes) rfl
        (hres.mono houtside.keeps) (hinv _ _ _ _ hplaced hm)
  | below lo hi hlt hneg ih =>
      obtain ⟨side', m', hm', hanswer, hasked⟩ :=
        calls_ask closed hinv hanswers hlt hhi hnext hcallbacks hm
      obtain ⟨regs, hvalues, hdispatch⟩ := run_dispatch_resumed closed hanswer.lr
        (hanswer.jobs.trans (congrArg CallbackState.jobs hcallbacks))
      have hless : asI32 (m'.regs.gprValue 0 false) < 0 ↔
          answers order run x (lo + (hi - lo) / 2) < 0 := by
        rw [hanswer.less, answers_of_elements hnext helements (by omega)]
      rw [if_pos (hless.mpr hneg)] at hdispatch
      have harray : s.elements (⟨regs, m'.mem, m'.heap⟩ : Machine).mem.pages = run ++ x :: rest :=
        hanswer.array.trans helements
      rw [bound_below hlt hneg] at hgoes ⊢
      obtain ⟨side₁, m₁, hcalls, hends⟩ := ih (by omega) (by omega) hgoes
        harray rfl (hres.mono hanswer.keeps) (hquiet side' m' _ regs hvalues hm')
      refine ⟨side₁, m₁, ?_, hends⟩
      rw [Nat.add_right_comm]
      exact hasked _ _ _ (hdispatch ▸ hcalls)
  | above lo hi hlt hpos ih =>
      obtain ⟨side', m', hm', hanswer, hasked⟩ :=
        calls_ask closed hinv hanswers hlt hhi hnext hcallbacks hm
      obtain ⟨regs, hvalues, hdispatch⟩ := run_dispatch_resumed closed hanswer.lr
        (hanswer.jobs.trans (congrArg CallbackState.jobs hcallbacks))
      have hless : asI32 (m'.regs.gprValue 0 false) < 0 ↔
          answers order run x (lo + (hi - lo) / 2) < 0 := by
        rw [hanswer.less, answers_of_elements hnext helements (by omega)]
      rw [if_neg (hpos ∘ hless.mp)] at hdispatch
      have harray : s.elements (⟨regs, m'.mem, m'.heap⟩ : Machine).mem.pages = run ++ x :: rest :=
        hanswer.array.trans helements
      rw [bound_above hlt hpos] at hgoes ⊢
      obtain ⟨side₁, m₁, hcalls, hends⟩ := ih (by omega) hhi hgoes
        harray rfl (hres.mono hanswer.keeps) (hquiet side' m' _ regs hvalues hm')
      refine ⟨side₁, m₁, ?_, hends⟩
      rw [Nat.add_right_comm]
      exact hasked _ _ _ (hdispatch ▸ hcalls)

theorem length_elements (p : Pages) : (s.elements p).length = s.count := by
  rw [elements, List.length_map, List.length_range]

/-- From the search for one element's place on, the rest are placed one by one. -/
theorem calls_goOn (hinv : ∀ side m side' m', s.Rearranged side m side' m' → inv side m →
      inv side' m') (hanswers : s.Answers inv order comparator) (hfits : s.Fits)
    (helements : s.elements m.mem.pages = run ++ x :: rest)
    (hcallbacks : side.callbacks = ⟨s.pc, s.jobs ++ [s.job run.length 0 run.length]⟩)
    (hres : s.Resident m.mem) (hm : inv side m) :
    ∃ side' m', Calls qsort s.pc closed comparator
        ((goOn (s.job run.length 0 run.length)).run side closed m)
        (asked order run (x :: rest)) side' m' ∧
      s.Ends inv (placeAll order run (x :: rest)) side' m' := by
  induction rest generalizing run x side m with
  | nil =>
      have hcount : (s.elements m.mem.pages).length = s.count := length_elements _
      rw [helements, List.length_append, List.length_singleton] at hcount
      refine calls_search closed hinv hanswers hfits (by omega) (Nat.zero_le _) le_rfl
        (fun side m hplaced hcallbacks _ hm => ?_) helements hcallbacks hres hm
      rw [if_pos (by omega)]
      rw [List.append_nil] at hplaced
      obtain ⟨side', m', hcalls, hends⟩ :=
        calls_finish closed hinv (congrArg CallbackState.jobs hcallbacks) hm
      have hsorted : s.elements m.mem.pages = placeAll order run [x] := hplaced
      exact ⟨side', m', hcalls, hsorted ▸ hends⟩
  | cons y rest ih =>
      have hcount : (s.elements m.mem.pages).length = s.count := length_elements _
      rw [helements, List.length_append, List.length_cons, List.length_cons] at hcount
      refine calls_search closed hinv hanswers hfits (by omega) (Nat.zero_le _) le_rfl
        (fun side m hplaced hcallbacks hres hm => ?_) helements hcallbacks hres hm
      rw [if_neg (by omega)]
      have hlen : (place order run x).length = run.length + 1 := length_place run x
      have hgo := @ih side m (place order run x) y hplaced
      rw [hlen] at hgo
      exact hgo hcallbacks hres hm

end Search

/-- A fresh call takes up the second element, unless there is nothing to sort. -/
theorem run_dispatch_fresh (h : s.Called side m) (hfresh : s.Fresh) :
    ∃ regs, regs.values = m.regs.values ∧
      dispatchStub qsort s.pc closed side m =
        if s.count < 2 ∨ s.size = 0 then
          (⟨regs, m.mem, m.heap⟩, enter s.pc side, .ok .continue)
        else
          (goOn (s.job 1 0 1)).run
            { side with callbacks := ⟨s.pc, s.jobs ++ [s.job 1 0 1]⟩ } closed
            ⟨regs, m.mem, m.heap⟩ := by
  have hother : m.regs.gprValue 30 true = s.pc →
      ∀ job ∈ side.callbacks.jobs.getLast?, job.search ≠ false := by
    intro hlr job hjob
    rw [h.jobs] at hjob
    simp [hfresh (h.caller ▸ hlr) job hjob]
  have hzero : m.regs.gprValue 2 true = 0 ↔ s.size = 0 := by
    rw [← h.size]
    exact ⟨fun heq => congrArg BitVec.toNat heq, fun heq => BitVec.eq_of_toNat_eq heq⟩
  rw [dispatchStub, qsort, Stub.run_bind_ok (run_resuming_fresh false closed hother)]
  simp only [beginSort, run_bind_readGpr, gprValue_readGpr, h.base, h.count, h.size, hzero]
  by_cases hnone : s.count < 2 ∨ s.size = 0
  · simp only [if_pos hnone]
    exact ⟨_, by simp only [RegisterFile.values_readGpr], rfl⟩
  · simp only [if_neg hnone, run_bind_readGpr, gprValue_readGpr, h.target, h.caller]
    apply Exists.intro
    apply And.intro
    rotate_left
    · rw [modifyCallbacks, Stub.run_bind, Stub.run_modify]
      simp only [enter, CallbackState.push, h.jobs]
      rfl
    · simp only [RegisterFile.values_readGpr]

end Steps

/-- What a call leaves: the elements there were, in order and with equal ones as they stood if
the comparator keeps to an order, the caller's return address, and the jobs there were. -/
structure Sorted (s : Sorting) (inv : HostSide → Machine → Prop)
    (order : List Byte → List Byte → Int) (m : Machine) (side' : HostSide) (m' : Machine) :
    Prop where
  perm : (s.elements m'.mem.pages).Perm (s.elements m.mem.pages)
  sorts : Consistent order (s.elements m.mem.pages) →
    Sorts order (s.elements m.mem.pages) (s.elements m'.mem.pages)
  caller : m'.regs.gprValue 30 true = s.caller
  jobs : side'.callbacks.jobs = s.jobs
  inv : inv side' m'

theorem sorts_trivial {order : List Byte → List Byte → Int} {l : List (List Byte)}
    (h : Consistent order l) (hl : l.length < 2 ∨ ∀ a ∈ l, ∀ b ∈ l, a = b) : Sorts order l l := by
  refine ⟨.refl l, ?_, fun _ _ => rfl⟩
  rcases hl with hshort | hsame
  · rcases l with _ | ⟨a, _ | ⟨b, rest⟩⟩
    · exact .nil
    · exact List.pairwise_singleton _ _
    · simp at hshort
  · refine List.pairwise_of_forall_mem_list fun a ha b hb => ?_
    rw [hsame a ha b hb]
    by_contra hpos
    have hlt := (h.antisymm b hb b hb).mpr (Int.not_le.mp hpos)
    omega

end Sorting

/-- Whatever the comparator answers, `qsort` returns after finitely many questions and the
array holds its elements again; answers by an order sort it, equal elements as they stood.
Nothing but the array is written: what holds of all other state, and what the comparator keeps,
holds at the end. -/
theorem qsort_sorts (s : Sorting) (inv : HostSide → Machine → Prop)
    (order : List Byte → List Byte → Int) (comparator : Comparator) (closed : Bool)
    (side : HostSide) (m : Machine)
    (hinv : ∀ side m side' m', s.Rearranged side m side' m' → inv side m → inv side' m')
    (hanswers : s.Answers inv order comparator) (hcalled : s.Called side m) (hfresh : s.Fresh)
    (hfits : s.Fits) (hres : s.Resident m.mem) (hm : inv side m) :
    ∃ asked side' m', Calls qsort s.pc closed comparator (dispatchStub qsort s.pc closed side m)
        asked side' m' ∧ s.Sorted inv order m side' m' ∧
      asked ≤ ((List.range (s.count - 1)).map fun i => Nat.log 2 (i + 1) + 1).sum := by
  obtain ⟨regs, hvalues, hdispatch⟩ := Sorting.run_dispatch_fresh closed hcalled hfresh
  have hlen : (s.elements m.mem.pages).length = s.count := Sorting.length_elements _
  by_cases hnone : s.count < 2 ∨ s.size = 0
  · rw [hdispatch, if_pos hnone]
    refine ⟨0, _, _, .returned _ _, ⟨.refl _, fun h => Sorting.sorts_trivial h ?_,
      ?_, hcalled.jobs, hinv _ _ _ _ (.of_undisturbed ((Undisturbed.of_values hvalues).trans
        (.callbacks side _ _))) hm⟩, Nat.zero_le _⟩
    · rw [hlen]
      refine hnone.imp_right fun hzero a ha b hb => ?_
      have hempty : ∀ a ∈ s.elements m.mem.pages, a = [] := by
        intro a ha
        obtain ⟨i, -, rfl⟩ := List.mem_map.mp ha
        rw [Sorting.bytesAt, hzero]
        rfl
      rw [hempty a ha, hempty b hb]
    · exact (RegisterFile.gprValue_congr hvalues 30 true).trans hcalled.caller
  · rw [hdispatch, if_neg hnone]
    obtain ⟨x, y, rest, helements⟩ : ∃ x y rest, s.elements m.mem.pages = x :: y :: rest := by
      rcases hsplit : s.elements m.mem.pages with _ | ⟨x, _ | ⟨y, rest⟩⟩
      · simp [hsplit] at hlen
        omega
      · simp [hsplit] at hlen
        omega
      · exact ⟨x, y, rest, rfl⟩
    have hstart := hinv _ _ _ _ (.of_undisturbed ((Undisturbed.of_values hvalues).trans
      (.callbacks side ⟨s.pc, s.jobs ++ [s.job 1 0 1]⟩ _))) hm
    have harray : s.elements (⟨regs, m.mem, m.heap⟩ : Machine).mem.pages = [x] ++ y :: rest :=
      helements
    obtain ⟨side', m', hcalls, hends⟩ :=
      Sorting.calls_goOn closed hinv hanswers hfits harray rfl hres hstart
    have hplaced : s.elements m'.mem.pages = placeAll order [] (s.elements m.mem.pages) := by
      rw [hends.elements, helements, placeAll_cons [] x, place_nil]
    refine ⟨_, side', m', hcalls, ⟨?_, fun h => ?_, hends.caller, hends.jobs, hends.inv⟩, ?_⟩
    · rw [hplaced]
      exact perm_placeAll [] _
    · rw [hplaced]
      exact sorts_placeAll h
    · have hcount : s.count - 1 = (y :: rest).length := by
        rw [← hlen, helements]
        rfl
      rw [hcount]
      refine (asked_le [x] (y :: rest)).trans (le_of_eq ?_)
      congr 2
      funext i
      exact congrArg (Nat.log 2 · + 1) (Nat.add_comm 1 i)

def byteDifference (a b : List Byte) : Int := (a.headD 0).toNat - (b.headD 0).toNat

def byteSorting : Sorting where
  pc := 0xFFFF0010
  jobs := []
  base := 0x500000
  count := 4
  size := 1
  target := 0x400080
  caller := 0x400100

/-- The registers of a call of `qsort`. -/
def Sorting.regs (s : Sorting) : RegisterFile :=
  ((((RegisterFile.new.writeGpr 0 true s.base).writeGpr 1 true
    (BitVec.ofNat 64 s.count)).writeGpr 2 true (BitVec.ofNat 64 s.size)).writeGpr 3 true
    s.target).writeGpr 30 true s.caller

theorem answers_byteDifference :
    byteSorting.Answers (fun _ _ => True) byteDifference compareBytes := by
  rintro i - j - side ⟨regs, mem, heap⟩ - hentry
  have hdifference : ∀ a b : Byte, asI32 ((a.setWidth 64 - b.setWidth 64) &&& 0xFFFFFFFF) < 0 ↔
      ((a.toNat : Int) - b.toNat < 0) := by
    intro a b
    have ha := a.isLt
    have hb := b.isLt
    have hlow : (((a.setWidth 64 - b.setWidth 64) &&& 0xFFFFFFFF : Word).setWidth 32).toNat =
        (2 ^ 64 - b.toNat + a.toNat) % 2 ^ 32 := by
      have hmask : (0xFFFFFFFF : Word).toNat = 2 ^ 32 - 1 := rfl
      rw [BitVec.toNat_setWidth, BitVec.toNat_and, hmask, Nat.and_two_pow_sub_one_eq_mod,
        BitVec.toNat_sub, BitVec.toNat_setWidth, BitVec.toNat_setWidth]
      omega
    rw [asI32, BitVec.toInt_eq_toNat_cond, hlow]
    omega
  refine ⟨trivial, ⟨?_, rfl, fun _ => id, ?_, rfl⟩⟩
  · unfold compareBytes
    rw [hentry.left, hentry.right, gprValue_writeGpr_narrow _ _ false (by decide)]
    exact hdifference _ _
  · exact (gprValue_writeGpr_of_ne _ _ true (by decide) (by decide)).trans hentry.lr

/-- The bytes 3, 1, 2, 1 are sorted, in at most five questions. -/
theorem qsort_sorts_bytes :
    ∃ asked side' m', Calls qsort 0xFFFF0010 false compareBytes
        (dispatchStub qsort 0xFFFF0010 false HostSide.idle
          ⟨byteSorting.regs, textMemory [3, 1, 2, 1], HeapState.new⟩) asked side' m' ∧
      Sorts byteDifference [[3], [1], [2], [1]] (byteSorting.elements m'.mem.pages) ∧
      asked ≤ 5 := by
  have helements : byteSorting.elements (textMemory [3, 1, 2, 1]).pages = [[3], [1], [2], [1]] := by
    decide
  have hconsistent : Consistent byteDifference [[3], [1], [2], [1]] := by
    refine ⟨fun a _ b _ => ?_, fun a _ b _ c _ hab hbc => ?_⟩
    · unfold byteDifference
      omega
    · unfold byteDifference at *
      omega
  have hskip : ∀ (r : RegisterFile) (i j : Nat) (value : Word), i < 31 → j ≠ i →
      (r.writeGpr i true value).gprValue j true = r.gprValue j true :=
    fun r i j value hi hne => gprValue_writeGpr_of_ne r value true hi hne
  have hcalled : byteSorting.Called HostSide.idle
      ⟨byteSorting.regs, textMemory [3, 1, 2, 1], HeapState.new⟩ := by
    constructor <;> simp [Sorting.regs, hskip, gprValue_writeGpr_same, byteSorting, HostSide.idle]
    rfl
  obtain ⟨asked, side', m', hcalls, hsorted, hasked⟩ := qsort_sorts byteSorting (fun _ _ => True)
    byteDifference compareBytes false HostSide.idle
    ⟨byteSorting.regs, textMemory [3, 1, 2, 1], HeapState.new⟩ (fun _ _ _ _ _ _ => trivial)
    answers_byteDifference hcalled (fun h => absurd h (by decide))
    (by unfold Sorting.Fits; decide) (by unfold Sorting.Resident; decide) trivial
  have hbound : ((List.range (byteSorting.count - 1)).map fun i => Nat.log 2 (i + 1) + 1).sum =
      5 := by
    have h2 : Nat.log 2 2 = 1 := Nat.log_pow (by decide) 1
    have h3 : Nat.log 2 3 = 1 := Nat.log_eq_of_pow_le_of_lt_pow (by decide) (by decide)
    simp [byteSorting, List.range_succ, h2, h3]
  have hsorts := hsorted.sorts
  rw [helements] at hsorts
  exact ⟨asked, side', m', hcalls, hsorts hconsistent, hbound ▸ hasked⟩

end Hosted

end Playground
