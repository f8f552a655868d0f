/-
`scanf` over input that arrives in pieces.  A call that waits is made again from the start when
more has come, and comes to what one call over all of it comes to; and what a call answers before
the end of the input stands, whatever comes behind.
-/
import Playground.Hosted.ScanfAgain

namespace Playground

namespace Hosted

open Exec

/-- How a call ends: done at a place of the input, out of input there, or in a store that
fails. -/
inductive Ending
  | done (inPos : Nat)
  | waits (inPos : Nat)
  | fault (m : Machine) (e : EmuError)

/-- The state a call ends in, and how. -/
inductive Ends (input : List Byte) (closed : Bool) :
    List Char → ScanState → Machine → Ending → Prop
  | finished (s : ScanState) (m : Machine) : Ends input closed [] s m (.done s.inPos)
  | literal {c : Char} {rest : List Char} {s : ScanState} {m : Machine} {b : Byte}
      (hc : isFormatSpace c = false) (hpercent : c ≠ '%') (hb : input[s.inPos]? = some b)
      (hne : byteChar b ≠ c) : Ends input closed (c :: rest) s m (.done s.inPos)
  | lone {rest : List Char} {s : ScanState} {m : Machine} {spec : ScanSpec} {used : Nat}
      (hspec : parseScanSpec rest = (spec, used)) (hconv : rest[used]? = none) :
      Ends input closed ('%' :: rest) s m (.done s.inPos)
  | mismatch {rest : List Char} {s : ScanState} {m : Machine} {spec : ScanSpec} {used : Nat}
      {conv : Char} {inPos : Nat} (hspec : parseScanSpec rest = (spec, used))
      (hconv : rest[used]? = some conv)
      (hfield : scanField spec conv input s.inPos closed = .mismatch inPos) :
      Ends input closed ('%' :: rest) s m (.done inPos)
  | unknown {rest : List Char} {s : ScanState} {m : Machine} {spec : ScanSpec} {used : Nat}
      {conv : Char} (hspec : parseScanSpec rest = (spec, used))
      (hconv : rest[used]? = some conv)
      (hfield : scanField spec conv input s.inPos closed = .unknown) :
      Ends input closed ('%' :: rest) s m (.done s.inPos)
  | fault {rest : List Char} {s : ScanState} {m m₁ : Machine} {spec : ScanSpec} {used : Nat}
      {conv : Char} {stored : Option Stored} {inPos : Nat} {e : EmuError}
      (hspec : parseScanSpec rest = (spec, used)) (hconv : rest[used]? = some conv)
      (hfield : scanField spec conv input s.inPos closed = .taken stored inPos)
      (htake : (takeField spec stored inPos s.fresh).run m = (m₁, .error e)) :
      Ends input closed ('%' :: rest) s m (.fault m₁ e)
  | waits {fmt : List Char} {s : ScanState} {m : Machine} {inPos : Nat}
      (h : MeetsEnd input closed fmt s inPos) : Ends input closed fmt s m (.waits inPos)

section Endings

variable {input : List Byte} {closed : Bool} {fmt : List Char} {s : ScanState} {m : Machine}

/-- Every call reads on until it ends. -/
theorem exists_ends (input : List Byte) (closed : Bool) (fmt : List Char) (s : ScanState)
    (m : Machine) : ∃ fields fmt' s' m' e, Reads input closed fmt s m fields fmt' s' m' ∧
      Ends input closed fmt' s' m' e := by
  induction hlen : fmt.length using Nat.strong_induction_on generalizing fmt s m with
  | _ n ih =>
  cases fmt with
  | nil => exact ⟨[], [], s, m, _, .done _ _ _, .finished s m⟩
  | cons c rest =>
      rw [List.length_cons] at hlen
      cases hc : isFormatSpace c with
      | true =>
          obtain ⟨fields, fmt', s', m', e, hreads, hend⟩ :=
            ih rest.length (by omega) rest { s with inPos := skipSpace input s.inPos } m rfl
          exact ⟨fields, fmt', s', m', e, .space hc hreads, hend⟩
      | false =>
      by_cases hpercent : c = '%'
      · subst hpercent
        rcases hspec : parseScanSpec rest with ⟨spec, used⟩
        cases hconv : rest[used]? with
        | none => exact ⟨[], _, s, m, _, .done _ _ _, .lone hspec hconv⟩
        | some conv =>
        have hdrop : rest.drop used = conv :: rest.drop (used + 1) := by
          obtain ⟨hlt, hget⟩ := List.getElem?_eq_some_iff.mp hconv
          rw [List.drop_eq_getElem_cons hlt, hget]
        have hbehind : (rest.drop (used + 1)).length ≤ rest.length := by
          rw [List.length_drop]
          omega
        cases hfield : scanField spec conv input s.inPos closed with
        | stalled inPos =>
            exact ⟨[], _, s, m, _, .done _ _ _, .waits (.field hspec hdrop hfield)⟩
        | mismatch inPos => exact ⟨[], _, s, m, _, .done _ _ _, .mismatch hspec hconv hfield⟩
        | unknown => exact ⟨[], _, s, m, _, .done _ _ _, .unknown hspec hconv hfield⟩
        | taken stored inPos =>
            rcases htake : (takeField spec stored inPos s.fresh).run m with ⟨m₁, e | s₁⟩
            · exact ⟨[], _, s, m, _, .done _ _ _, .fault hspec hconv hfield htake⟩
            · obtain ⟨fields, fmt', s', m', e, hreads, hend⟩ :=
                ih _ (by omega) (rest.drop (used + 1)) s₁ m₁ rfl
              exact ⟨_, fmt', s', m', e, .field hspec hdrop hfield htake hreads, hend⟩
      · cases hget : input[s.inPos]? with
        | none => exact ⟨[], _, s, m, _, .done _ _ _, .waits (.literal hc hpercent hget)⟩
        | some b =>
            by_cases heq : byteChar b = c
            · obtain ⟨fields, fmt', s', m', e, hreads, hend⟩ :=
                ih rest.length (by omega) rest { s with inPos := s.inPos + 1 } m rfl
              exact ⟨fields, fmt', s', m', e, .literal hc hpercent hget heq hreads, hend⟩
            · exact ⟨[], _, s, m, _, .done _ _ _, .literal hc hpercent hget heq⟩

/-- The machine with a call's answer in x0. -/
def answered (m : Machine) (x0 : Word) : Machine := ⟨m.regs.writeGpr 0 true x0, m.mem, m.heap⟩

def Ending.leaves (closed : Bool) (input : List Byte) (matched : Nat) (m : Machine) :
    Ending → Machine × List Byte × Except EmuError HostOutcome
  | .done inPos => (answered m (BitVec.ofNat 64 matched), input.drop inPos, .ok .continue)
  | .waits inPos =>
      if closed then
        (answered m (if 0 < matched then BitVec.ofNat 64 matched else BitVec.allOnes 64),
          input.drop inPos, .ok .continue)
      else (m, input, .ok .needInput)
  | .fault m₁ e => (m₁, input, .error e)

/-- A run that left the machine and the input so, and no other trace but its card. -/
def Left (side : HostSide) (run : Machine × HostSide × Except EmuError HostOutcome)
    (e : Machine × List Byte × Except EmuError HostOutcome) : Prop :=
  ∃ call, run = (e.1, { side with callScratch := call, stdin := e.2.1 }, e.2.2)

theorem left_commit (side : HostSide) (closed : Bool) (m : Machine) (s : ScanState) :
    Left side ((commit s).run side closed m)
      ((Ending.done s.inPos).leaves closed side.stdin s.matched m) := ⟨_, rfl⟩

theorem left_stall (side : HostSide) (closed : Bool) (m : Machine) (inPos matched : Nat) :
    Left side ((stall inPos matched).run side closed m)
      ((Ending.waits inPos).leaves closed side.stdin matched m) := by
  cases closed with
  | true => exact ⟨_, rfl⟩
  | false => exact ⟨_, rfl⟩

theorem Left.of_scratch {side side' : HostSide} (h : ScratchOnly side side')
    {run : Machine × HostSide × Except EmuError HostOutcome}
    {e : Machine × List Byte × Except EmuError HostOutcome} (hleft : Left side' run e) :
    Left side run e := by
  obtain ⟨call, rfl⟩ := h
  exact hleft

theorem Ends.run {side : HostSide} {e : Ending} (h : Ends side.stdin closed fmt s m e)
    (pos : Nat) : Left side ((scanFrom pos 0 s fmt).run side closed m)
      (e.leaves closed side.stdin s.matched m) := by
  cases h with
  | finished => exact left_commit side closed m s
  | literal hc hpercent hb hne =>
      rw [scanFrom, if_neg (by rw [hc]; decide), if_pos hpercent,
        Stub.run_bind_ok (Stub.run_look _ _ _ _)]
      simp only [hb, ne_eq, hne, not_false_eq_true, if_true]
      exact left_commit side closed m s
  | lone hspec hconv =>
      rw [scanFrom, if_neg (by rw [isFormatSpace_percent]; decide), if_neg (not_not_intro rfl)]
      simp only [hspec, hconv]
      exact left_commit side closed m s
  | mismatch hspec hconv hfield =>
      obtain ⟨side', hscratch, hrun⟩ :=
        @run_scanFrom_conversion side closed m s _ _ _ _ hspec hconv pos
      rw [hfield] at hrun
      have hstdin := stdin_of_scratchOnly hscratch
      rw [hrun, ← hstdin]
      exact (left_commit side' closed m _).of_scratch hscratch
  | unknown hspec hconv hfield =>
      obtain ⟨side', hscratch, hrun⟩ :=
        @run_scanFrom_conversion side closed m s _ _ _ _ hspec hconv pos
      rw [hfield] at hrun
      obtain ⟨call, rfl⟩ := hscratch
      rw [hrun]
      exact ⟨_, rfl⟩
  | fault hspec hconv hfield htake =>
      obtain ⟨side', hscratch, hrun⟩ :=
        @run_scanFrom_conversion side closed m s _ _ _ _ hspec hconv pos
      rw [hfield] at hrun
      obtain ⟨call, rfl⟩ := hscratch
      rw [hrun]
      refine ⟨call, Stub.run_bind_error ?_⟩
      rw [Stub.run_liftM, htake]
      rfl
  | waits h =>
      obtain ⟨side', hscratch, hrun⟩ := h.run (m := m) pos
      have hstdin := stdin_of_scratchOnly hscratch
      rw [hrun, ← hstdin]
      exact (left_stall side' closed m _ _).of_scratch hscratch

end Endings

section More

variable {input later : List Byte} {closed : Bool} {fmt fmt' : List Char} {s s' t : ScanState}
  {m m' : Machine} {fields : List ScanSpec}

theorem takeWhile_drop_of_le {p : Byte → Bool} {l : List Byte} {k : Nat}
    (h : k ≤ (l.takeWhile p).length) : (l.drop k).takeWhile p = (l.takeWhile p).drop k := by
  induction k generalizing l with
  | zero => rfl
  | succ k ih =>
      cases l with
      | nil => rfl
      | cons b l =>
          rw [List.takeWhile_cons] at h ⊢
          split at h
          · next hb =>
              rw [if_pos hb, List.drop_succ_cons, List.drop_succ_cons]
              exact ih (Nat.le_of_succ_le_succ h)
          · exact absurd h (Nat.not_succ_le_zero k)

/-- White space is skipped to the same place from anywhere in it. -/
theorem skipSpace_inside {i j : Nat} (hij : i ≤ j) (hj : j ≤ skipSpace input i) :
    skipSpace input j = skipSpace input i := by
  obtain ⟨k, rfl⟩ := Nat.exists_eq_add_of_le hij
  unfold skipSpace at hj ⊢
  rw [← List.drop_drop, takeWhile_drop_of_le (by omega), List.length_drop]
  omega

/-- White space up to the end of the input goes on into what comes behind. -/
theorem skipSpace_through {i : Nat} (hi : i ≤ input.length) (h : skipSpace input i = input.length) :
    skipSpace (input ++ later) i = skipSpace (input ++ later) input.length := by
  refine (skipSpace_inside hi ?_).symm
  unfold skipSpace at h ⊢
  rw [List.drop_append_of_le_length hi, List.takeWhile_append, if_pos (by
    rw [List.length_drop]
    omega), List.length_append, List.length_drop]
  omega

/-- The same state with more input behind: only white space at the end can have been skipped
further. -/
def Near (input later : List Byte) (s t : ScanState) : Prop :=
  s.inPos ≤ input.length ∧ (t = s ∨ s.inPos = input.length ∧
    t = { s with inPos := skipSpace (input ++ later) input.length })

theorem Near.space (h : Near input later s t) :
    Near input later { s with inPos := skipSpace input s.inPos }
      { t with inPos := skipSpace (input ++ later) t.inPos } := by
  obtain ⟨hle, h⟩ := h
  have hskip := skipSpace_le hle
  refine ⟨hskip, ?_⟩
  rcases h with rfl | ⟨hend, rfl⟩
  · rcases Nat.lt_or_eq_of_le hskip with hlt | heq
    · rw [skipSpace_more hlt]
      exact .inl rfl
    · rw [skipSpace_through hle heq]
      exact .inr ⟨heq, rfl⟩
  · have hstay : skipSpace input s.inPos = input.length :=
      Nat.le_antisymm hskip (hend ▸ le_skipSpace input s.inPos)
    have hagain := skipSpace_inside (le_skipSpace (input ++ later) input.length) le_rfl
    refine .inr ⟨hstay, ?_⟩
    dsimp only
    rw [hagain]

theorem Near.eq_of_lt (h : Near input later s t) (hlt : s.inPos < input.length) : t = s :=
  h.2.elim id fun hend => absurd hend.1 hlt.ne

/-- A conversion that there is waits at the end of the input. -/
theorem lt_of_answers {spec : ScanSpec} {conv : Char} {inPos : Nat}
    (h : (scanField spec conv input inPos false).waits = false)
    (hknown : scanField spec conv input inPos false ≠ .unknown) : inPos < input.length :=
  Nat.lt_of_not_le fun hend => hknown (scanField_past hend h)

/-- A call over the start of the input takes the same steps over more of it. -/
theorem Reads.more (h : Reads input false fmt s m fields fmt' s' m') (hst : Near input later s t)
    (closed : Bool) :
    ∃ t', Reads (input ++ later) closed fmt t m fields fmt' t' m' ∧ Near input later s' t' := by
  induction h generalizing t with
  | done fmt s m => exact ⟨t, .done fmt t m, hst⟩
  | space hc _ ih =>
      obtain ⟨t', hreads, hnear⟩ := ih hst.space
      exact ⟨t', .space hc hreads, hnear⟩
  | literal hc hpercent hb heq _ ih =>
      have hlt := (List.getElem?_eq_some_iff.mp hb).1
      cases hst.eq_of_lt hlt
      obtain ⟨t', hreads, hnear⟩ := ih ⟨hlt, .inl rfl⟩
      exact ⟨t', .literal hc hpercent ((getElem?_more hlt later).trans hb) heq hreads, hnear⟩
  | @field _ _ _ _ _ _ _ _ _ _ spec _ conv _ _ hspec hconv hfield htake _ ih =>
      have hlt := lt_of_answers (by rw [hfield]; rfl) fun h => by rw [hfield] at h; cases h
      cases hst.eq_of_lt hlt
      have hstop := @scanField_stop_le input _ spec conv false hlt.le
      have hmore := scanField_more (by rw [hfield]; rfl) later closed
      rw [hfield] at hstop hmore
      obtain ⟨t', hreads, hnear⟩ := ih ⟨(takeField_state htake).1 ▸ hstop, .inl rfl⟩
      exact ⟨t', .field hspec hconv hmore htake hreads, hnear⟩

/-- A call that is done before the end of the input is done there whatever comes behind: only
white space at the end can be skipped further. -/
theorem Ends.more {inPos : Nat} (h : Ends input false fmt s m (.done inPos))
    (hst : Near input later s t) (closed : Bool) :
    ∃ inPos', Ends (input ++ later) closed fmt t m (.done inPos') ∧
      (inPos' = inPos ∧ inPos ≤ input.length ∨
        inPos = input.length ∧ inPos' = skipSpace (input ++ later) input.length) := by
  have hplaces : t.inPos = s.inPos ∧ s.inPos ≤ input.length ∨
      s.inPos = input.length ∧ t.inPos = skipSpace (input ++ later) input.length := by
    rcases hst.2 with rfl | ⟨hend, rfl⟩
    · exact .inl ⟨rfl, hst.1⟩
    · exact .inr ⟨hend, rfl⟩
  cases h with
  | finished => exact ⟨_, .finished t m, hplaces⟩
  | literal hc hpercent hb hne =>
      have hlt := (List.getElem?_eq_some_iff.mp hb).1
      cases hst.eq_of_lt hlt
      exact ⟨_, .literal hc hpercent ((getElem?_more hlt later).trans hb) hne, .inl ⟨rfl, hst.1⟩⟩
  | lone hspec hconv => exact ⟨_, .lone hspec hconv, hplaces⟩
  | @mismatch _ _ _ spec _ conv _ hspec hconv hfield =>
      have hlt := lt_of_answers (by rw [hfield]; rfl) fun h => by rw [hfield] at h; cases h
      cases hst.eq_of_lt hlt
      have hstop := @scanField_stop_le input _ spec conv false hlt.le
      have hmore := scanField_more (by rw [hfield]; rfl) later closed
      rw [hfield] at hstop hmore
      exact ⟨_, .mismatch hspec hconv hmore, .inl ⟨rfl, hstop⟩⟩
  | unknown hspec hconv hfield =>
      exact ⟨_, .unknown hspec hconv (scanField_unknown hfield _ _ _), hplaces⟩

/-- What is left of the input behind a place in it, with more behind. -/
theorem drop_skipSpace (input later : List Byte) :
    (input ++ later).drop (skipSpace (input ++ later) input.length) = later.dropWhile isCSpace := by
  have hsplit := List.takeWhile_append_dropWhile (p := isCSpace) (l := later)
  have hdrop := congrArg (List.drop (later.takeWhile isCSpace).length) hsplit
  rw [List.drop_left] at hdrop
  unfold skipSpace
  rw [List.drop_left, ← List.drop_drop, List.drop_left, ← hdrop]

end More

section Arrival

variable {input piece : List Byte} {closed : Bool} {bytes : List Byte} {m n : Machine}

/-- The machine a call reads its arguments on: the format's address has been looked at. -/
def begun (m : Machine) : Machine := ⟨(m.regs.readGpr 0 true).1, m.mem, m.heap⟩

theorem sameSight_begun (m : Machine) : SameSight m (begun m) := .of_view (.readGpr m 0 true)

/-- The string that a call's format is. -/
def formatAt (m : Machine) : Except EmuError (List Byte) :=
  readCString m.mem (m.regs.gprValue 0 true) "scanf's format string"

theorem SameSight.formatAt (h : SameSight m n) : formatAt n = formatAt m := by
  have hsame : ∀ max addr, readCPrefix n.mem max addr = readCPrefix m.mem max addr := by
    intro max
    induction max with
    | zero => exact fun _ => rfl
    | succ max ih =>
        intro addr
        simp only [readCPrefix, h.mem.readU8, ih]
  unfold Hosted.formatAt readCString
  rw [RegisterFile.gprValue_congr h.values, hsame]

/-- Nothing that a call stores is in its format, nor in the stack slots it takes arguments
from. -/
def KeepsArguments (input : List Byte) (closed : Bool) (m : Machine) : Prop :=
  ∀ fields fmt s m', CallReads input closed m fields fmt s m' →
    formatAt m' = formatAt m ∧
    ∀ fields' fmt' s' m'', CallReads input closed m fields' fmt' s' m'' →
      SameSlots s'.walker.stackOff m m'

theorem near_refl (input later : List Byte) : Near input later ⟨0, 0, .new 1⟩ ⟨0, 0, .new 1⟩ :=
  ⟨Nat.zero_le _, .inl rfl⟩

theorem Near.counts {later : List Byte} {s t : ScanState} (h : Near input later s t) :
    t.walker = s.walker ∧ t.matched = s.matched := by
  rcases h.2 with rfl | ⟨-, rfl⟩
  · exact ⟨rfl, rfl⟩
  · exact ⟨rfl, rfl⟩

/-- A call that keeps its arguments over all of the input keeps them over the start of it. -/
theorem KeepsArguments.of_more (h : KeepsArguments (input ++ piece) closed m) :
    KeepsArguments input false m := by
  rintro fields fmt s m' ⟨bytes, hread, hreads⟩
  obtain ⟨t, hmore, -⟩ := hreads.more (near_refl input piece) closed
  obtain ⟨hformat, hslots⟩ := h _ _ _ _ ⟨bytes, hread, hmore⟩
  refine ⟨hformat, ?_⟩
  rintro fields' fmt' s' m'' ⟨bytes', hread', hreads'⟩
  obtain ⟨t', hmore', hnear'⟩ := hreads'.more (near_refl input piece) closed
  rw [← hnear'.counts.1]
  exact hslots _ _ _ _ ⟨bytes', hread', hmore'⟩

/-- The call has got this far over the input so far, and the program sees what it left. -/
def Reached (bytes input : List Byte) (m n : Machine) : Prop :=
  ∃ fields fmt s last, Reads input false (fromUtf8Lossy bytes) ⟨0, 0, .new 1⟩ (begun m) fields fmt
    s last ∧ SameSight last n

theorem Reached.start (bytes input : List Byte) (m : Machine) : Reached bytes input m m :=
  ⟨_, _, _, _, .done _ _ _, (sameSight_begun m).symm⟩

/-- Two endings the program cannot tell apart. -/
inductive SameEnding : Ending → Ending → Prop
  | done (inPos : Nat) : SameEnding (.done inPos) (.done inPos)
  | waits (inPos : Nat) : SameEnding (.waits inPos) (.waits inPos)
  | fault {m m' : Machine} (e : EmuError) (h : SameSight m m') :
      SameEnding (.fault m e) (.fault m' e)

theorem Ends.sight {fmt : List Char} {s : ScanState} {e : Ending}
    (h : Ends input closed fmt s m e) (hn : SameSight m n) :
    ∃ e', Ends input closed fmt s n e' ∧ SameEnding e e' := by
  cases h with
  | finished => exact ⟨_, .finished s n, .done _⟩
  | literal hc hpercent hb hne => exact ⟨_, .literal hc hpercent hb hne, .done _⟩
  | lone hspec hconv => exact ⟨_, .lone hspec hconv, .done _⟩
  | mismatch hspec hconv hfield => exact ⟨_, .mismatch hspec hconv hfield, .done _⟩
  | unknown hspec hconv hfield => exact ⟨_, .unknown hspec hconv hfield, .done _⟩
  | @fault _ _ _ _ spec _ _ stored inPos _ hspec hconv hfield htake =>
      have hagain := @SameSight.takeField _ _ spec stored inPos s.fresh hn
      rw [htake] at hagain
      exact ⟨_, .fault hspec hconv hfield (Prod.ext rfl hagain.2), .fault _ hagain.1⟩
  | waits h => exact ⟨_, .waits h, .waits _⟩

/-- A call made again with more input: it goes through the steps already taken, and then on, as a
call over all of the input does from the start. -/
theorem Reached.call (h : Reached bytes input m n) (hread : formatAt m = .ok bytes)
    (hkeeps : KeepsArguments (input ++ piece) closed m) :
    formatAt n = .ok bytes ∧ ∃ fields fmt s m' n' e e',
      Reads (input ++ piece) closed (fromUtf8Lossy bytes) ⟨0, 0, .new 1⟩ (begun m) fields fmt s m' ∧
      Reads (input ++ piece) closed (fromUtf8Lossy bytes) ⟨0, 0, .new 1⟩ (begun n) fields fmt s n' ∧
      Ends (input ++ piece) closed fmt s m' e ∧ Ends (input ++ piece) closed fmt s n' e' ∧
      SameSight m' n' ∧ SameEnding e e' := by
  obtain ⟨fields, fmt, s, last, hreads, hsight⟩ := h
  obtain ⟨t, hmore, -⟩ := hreads.more (near_refl input piece) closed
  have hlast := hkeeps _ _ _ _ ⟨bytes, hread, hmore⟩
  have hformat : formatAt n = .ok bytes := by
    rw [hsight.formatAt, hlast.1, hread]
  refine ⟨hformat, ?_⟩
  have hgrows := hmore.grows.1
  have hpages : CatchesUp last.mem.pages (begun m).mem.pages n.mem.pages := by
    rw [hsight.mem.pages]
    exact .start hgrows.mapped
  have hcatching : Catching last (begun m) (begun n) :=
    ⟨(sameSight_begun n).values.trans (hsight.values.trans hgrows.values),
      hsight.heap.trans hgrows.heap, hpages, hgrows.zeroFill.symm, hsight.mem.zeroFill⟩
  have hslots : ∀ fields₁ fmt₁ s₁ m₁, Reads (input ++ piece) closed (fromUtf8Lossy bytes)
      ⟨0, 0, .new 1⟩ (begun m) fields₁ fmt₁ s₁ m₁ → SameSlots t.walker.stackOff m₁ last := by
    intro fields₁ fmt₁ s₁ m₁ h₁
    have hthere := (hkeeps _ _ _ _ ⟨bytes, hread, h₁⟩).2 _ _ _ _ ⟨bytes, hread, hmore⟩
    have hhere := hlast.2 _ _ _ _ ⟨bytes, hread, hmore⟩
    have hsp : m₁.regs.sp = m.regs.sp :=
      congrArg RegisterValues.sp (h₁.grows.1.values.trans (sameSight_begun m).values)
    intro i hi
    rw [hsp]
    exact (hhere i hi).trans (hthere i hi).symm
  obtain ⟨n₁, hagain, hn₁⟩ := hmore.again hcatching hslots
  obtain ⟨fields', fmt', s', m', e, hon, hends⟩ := exists_ends (input ++ piece) closed fmt t last
  obtain ⟨n', hon', hn'⟩ := hon.sight hn₁
  obtain ⟨e', hends', hsame⟩ := hends.sight hn'
  exact ⟨_, _, _, _, _, _, _, hmore.trans hon, hagain.trans hon', hends, hends', hn', hsame⟩

/-- A call runs into the ending its steps lead to. -/
theorem left_scanf (side : HostSide) {fields : List ScanSpec} {fmt : List Char} {s : ScanState}
    {m' : Machine} {e : Ending} (hread : formatAt m = .ok bytes)
    (h : Reads side.stdin closed (fromUtf8Lossy bytes) ⟨0, 0, .new 1⟩ (begun m) fields fmt s m')
    (hends : Ends side.stdin closed fmt s m' e) :
    Left side (scanf.run side closed m) (e.leaves closed side.stdin s.matched m') := by
  have hcall : CallReads side.stdin closed m fields fmt s m' := ⟨bytes, hread, h⟩
  obtain ⟨pos, side', hscratch, hrun⟩ := hcall.run
  have hstdin := stdin_of_scratchOnly hscratch
  rw [hrun, ← hstdin]
  rw [← hstdin] at hends
  exact (hends.run pos).of_scratch hscratch

variable {side : HostSide}

/-- A call whose format cannot be read fails there. -/
theorem run_scanf_error {e : EmuError} (h : formatAt m = .error e) :
    scanf.run side closed m = (begun m, side, .error e) := by
  have hfmt : (liftM (attempt fun m' => readCString m'.mem (m.regs.gprValue 0 true)
      "scanf's format string") : Stub _).run side closed (begun m) =
      (begun m, side, .error e) := by
    rw [Stub.run_liftM, run_attempt]
    exact congrArg (fun bytes => (_, side, bytes)) h
  unfold scanf
  rw [run_bind_readGpr]
  exact Stub.run_bind_error hfmt

theorem SameEnding.leaves {e e' : Ending} {m' n' : Machine} (h : SameEnding e e')
    (hn : SameSight m' n') (closed : Bool) (input : List Byte) (matched : Nat) :
    SameSight (e.leaves closed input matched m').1 (e'.leaves closed input matched n').1 ∧
      (e'.leaves closed input matched n').2 = (e.leaves closed input matched m').2 := by
  have hanswered : ∀ x0 : Word, SameSight (answered m' x0) (answered n' x0) := by
    intro x0
    have hgpr : n'.regs.gpr = m'.regs.gpr := congrArg RegisterValues.gpr hn.values
    refine ⟨?_, hn.mem, hn.heap⟩
    unfold answered
    rw [RegisterFile.values_writeGpr, RegisterFile.values_writeGpr, hn.values, hgpr]
  cases h with
  | done inPos => exact ⟨hanswered _, rfl⟩
  | waits inPos =>
      cases closed with
      | true => exact ⟨hanswered _, rfl⟩
      | false => exact ⟨hn, rfl⟩
  | fault e h => exact ⟨h, rfl⟩

/-- Calls made one after another as the input comes, each of which waits: what has come so far,
and the machine and the library's state the next call starts from. -/
inductive Resumed (m : Machine) (side : HostSide) : List Byte → Machine → HostSide → Prop
  | start : Resumed m side side.stdin m side
  | again {input piece : List Byte} {m₁ m₂ : Machine} {side₁ side₂ : HostSide}
      (h : Resumed m side input m₁ side₁)
      (hrun : scanf.run side₁ false m₁ = (m₂, side₂, .ok .needInput)) :
      Resumed m side (input ++ piece) m₂ { side₂ with stdin := side₂.stdin ++ piece }

/-- Calls that wait get as far as one call does over what has come. -/
theorem Resumed.reached {m' : Machine} {side' : HostSide} (h : Resumed m side input m' side')
    (hread : formatAt m = .ok bytes) (hkeeps : KeepsArguments input false m) :
    Reached bytes input m m' ∧ m'.regs.values = m.regs.values ∧
      ScratchOnly { side with stdin := input } side' := by
  induction h with
  | start => exact ⟨.start bytes side.stdin m, rfl, .refl side⟩
  | @again input piece m₁ m₂ side₁ side₂ h hrun ih =>
      obtain ⟨hreached, hvalues, hscratch⟩ := ih hkeeps.of_more
      obtain ⟨call, rfl⟩ := hscratch
      have hnow : KeepsArguments (input ++ []) false m := by
        rw [List.append_nil]
        exact hkeeps.of_more
      obtain ⟨hread₁, fields, fmt, s, last, n, e, e', hreads, hagain, -, hends, hsight, -⟩ :=
        hreached.call hread hnow
      rw [List.append_nil] at hreads hagain hends
      obtain ⟨call', hleft⟩ :=
        left_scanf { side with stdin := input, callScratch := call } hread₁ hagain hends
      rw [hrun] at hleft
      cases e' with
      | done inPos => cases hleft
      | fault m₁ e => cases hleft
      | waits inPos =>
          cases hleft
          obtain ⟨t, hmore, -⟩ := hreads.more (near_refl input piece) false
          exact ⟨⟨_, _, _, _, hmore, hsight⟩, hsight.values.trans hreads.grows.1.values, call', rfl⟩

/-- With a format that cannot be read no call waits. -/
theorem Resumed.eq_start {m' : Machine} {side' : HostSide} {e : EmuError}
    (h : Resumed m side input m' side') (herror : formatAt m = .error e) :
    m' = m ∧ side' = side ∧ input = side.stdin := by
  induction h with
  | start => exact ⟨rfl, rfl, rfl⟩
  | again h hrun ih =>
      obtain ⟨rfl, rfl, -⟩ := ih
      rw [run_scanf_error herror] at hrun
      cases hrun

/-- A `scanf` call over input that comes in pieces, made again from the start each time one
comes, answers, stores and leaves what one call does with all of the input there from the
start; and until then it takes nothing from the input and changes no register. -/
theorem scanf_arrival {m' : Machine} {side' : HostSide} (h : Resumed m side input m' side')
    (closed : Bool) (hkeeps : KeepsArguments input closed m) :
    let whole := scanf.run { side with stdin := input } closed m
    let last := scanf.run side' closed m'
    (m'.regs.values = m.regs.values ∧ ScratchOnly { side with stdin := input } side') ∧
      last.2.2 = whole.2.2 ∧ ScratchOnly whole.2.1 last.2.1 ∧ SameSight whole.1 last.1 := by
  intro whole last
  cases hread : formatAt m with
  | error e =>
      obtain ⟨rfl, rfl, rfl⟩ := h.eq_start hread
      exact ⟨⟨rfl, .refl _⟩, rfl, .refl _, .refl _⟩
  | ok bytes =>
      have hnow : KeepsArguments (input ++ []) closed m := by rwa [List.append_nil]
      obtain ⟨hreached, hvalues, hscratch⟩ := h.reached hread hnow.of_more
      obtain ⟨call, rfl⟩ := hscratch
      obtain ⟨hread', fields, fmt, s, n, n', e, e', hreads, hagain, hends, hends', hsight, hsame⟩ :=
        hreached.call hread hnow
      rw [List.append_nil] at hreads hagain hends hends'
      obtain ⟨call₁, hwhole⟩ := left_scanf { side with stdin := input } hread hreads hends
      obtain ⟨call₂, hlast⟩ :=
        left_scanf { side with stdin := input, callScratch := call } hread' hagain hends'
      obtain ⟨hmachine, hrest⟩ := hsame.leaves hsight closed input s.matched
      refine ⟨⟨hvalues, call, rfl⟩, ?_⟩
      simp only [whole, last]
      rw [hwhole, hlast]
      rw [hrest]
      exact ⟨rfl, ⟨call₂, rfl⟩, hmachine⟩

/-- `scanf("%s", 0x500100)` stores its word past its format, and takes no argument from the
stack. -/
theorem keepsArguments_word : KeepsArguments [0x61, 0x62, 0x63, newline] false wordCall := by
  have hformat : formatAt wordCall = .ok [0x25, 0x73] := by decide
  have hreached : ∀ fields fmt s m',
      CallReads [0x61, 0x62, 0x63, newline] false wordCall fields fmt s m' →
      formatAt m' = .ok [0x25, 0x73] ∧ s.walker.stackOff = 0 := by
    rintro fields fmt s m' ⟨bytes, hread, h⟩
    cases hread.symm.trans hformat
    have hfmt : fromUtf8Lossy [0x25, 0x73] = ['%', 's'] := by decide
    rw [hfmt] at h
    cases h with
    | done => exact ⟨hformat, rfl⟩
    | literal _ hpercent => exact absurd rfl hpercent
    | space hc => cases hc
    | @field _ _ _ _ s₁ _ _ m₁ _ _ _ _ _ _ _ hspec hconv hfield htake h =>
        have hs : parseScanSpec ['s'] = (⟨false, none, false⟩, 0) := by decide
        cases hspec.symm.trans hs
        cases hconv
        have habc : scanField ⟨false, none, false⟩ 's' [0x61, 0x62, 0x63, newline] 0 false =
            .taken (some (.bytes [0x61, 0x62, 0x63, 0])) 3 := by decide
        cases hfield.symm.trans habc
        cases h
        have hstate := congrArg Prod.snd htake
        obtain rfl : _ = m' := congrArg Prod.fst htake
        refine ⟨by decide, ?_⟩
        have htook : ((takeField ⟨false, none, false⟩ (some (.bytes [0x61, 0x62, 0x63, 0])) 3
          (ScanState.fresh ⟨0, 0, .new 1⟩)).run (begun wordCall)).2 =
            .ok ⟨3, 1, ⟨⟨2, 0, 0⟩, (1, 0x500100)⟩⟩ := by rfl
        cases hstate.symm.trans htook
        rfl
  intro fields fmt s m' h
  refine ⟨(hreached _ _ _ _ h).1.trans hformat.symm, fun fields' fmt' s' m'' h' => ?_⟩
  rw [(hreached _ _ _ _ h').2]
  exact fun i hi => absurd hi (Nat.not_lt_zero i)

/-- The word `abc`: nothing, then its first letter, then the rest of the line. -/
theorem scanf_arrival_word : ∃ m' side',
    Resumed wordCall .idle [0x61, 0x62, 0x63, newline] m' side' ∧
      SameSight (scanf.run { HostSide.idle with stdin := [0x61, 0x62, 0x63, newline] } false
        wordCall).1 (scanf.run side' false m').1 := by
  have hfirst : (scanf.run .idle false wordCall).2.2 = .ok .needInput := by decide
  have hsecond := @Resumed.again wordCall .idle [] [0x61] _ _ _ _ .start
    (Prod.ext rfl (Prod.ext rfl hfirst))
  have hthird := @Resumed.again wordCall .idle _ [0x62, 0x63, newline] _ _ _ _ hsecond
    (Prod.ext rfl (Prod.ext rfl (by decide)))
  exact ⟨_, _, hthird, (scanf_arrival hthird false keepsArguments_word).2.2.2⟩

/-- What a call answers before the end of the input stands: with anything behind it the call
answers and stores the same, and leaves what comes behind where it was, but for white space
straight behind an end that the call has reached. -/
theorem scanf_answer_stands {m' : Machine} {side' : HostSide}
    (h : scanf.run side false m = (m', side', .ok .continue)) (later : List Byte) (closed : Bool) :
    ∃ side'', scanf.run { side with stdin := side.stdin ++ later } closed m =
        (m', side'', .ok .continue) ∧
      (ScratchOnly { side' with stdin := side'.stdin ++ later } side'' ∨
        side'.stdin = [] ∧
          ScratchOnly { side' with stdin := later.dropWhile isCSpace } side'') := by
  cases hread : formatAt m with
  | error e =>
      rw [run_scanf_error hread] at h
      cases h
  | ok bytes =>
      obtain ⟨fields, fmt, s, n, e, hreads, hends⟩ :=
        exists_ends side.stdin false (fromUtf8Lossy bytes) ⟨0, 0, .new 1⟩ (begun m)
      obtain ⟨call, hleft⟩ := left_scanf side hread hreads hends
      rw [h] at hleft
      cases e with
      | waits inPos => cases hleft
      | fault n e => cases hleft
      | done inPos =>
          cases hleft
          obtain ⟨t, hmore, hnear⟩ := hreads.more (near_refl side.stdin later) closed
          obtain ⟨inPos', hends', hplace⟩ := hends.more hnear closed
          obtain ⟨call', hrun⟩ :=
            left_scanf { side with stdin := side.stdin ++ later } hread hmore hends'
          rw [hnear.counts.2] at hrun
          refine ⟨_, hrun, ?_⟩
          rcases hplace with ⟨rfl, hle⟩ | ⟨rfl, rfl⟩
          · refine .inl ⟨call', ?_⟩
            simp only [Ending.leaves, List.drop_append_of_le_length hle]
          · refine .inr ⟨List.drop_length, call', ?_⟩
            simp only [Ending.leaves, drop_skipSpace]

/-- The word `abc` with a second word behind it. -/
theorem scanf_answer_stands_word : ∃ (m' : Machine) (side' side'' : HostSide),
    scanf.run { HostSide.idle with stdin := [0x61, 0x62, 0x63, newline, 0x64] } true wordCall =
        (m', side'', .ok .continue) ∧
      (ScratchOnly { side' with stdin := side'.stdin ++ [0x64] } side'' ∨
        side'.stdin = [] ∧
          ScratchOnly { side' with stdin := [0x64].dropWhile isCSpace } side'') := by
  have hrun : (scanf.run { HostSide.idle with stdin := [0x61, 0x62, 0x63, newline] } false
      wordCall).2.2 = .ok .continue := by decide
  obtain ⟨side'', hstands⟩ :=
    scanf_answer_stands (Prod.ext rfl (Prod.ext rfl hrun)) [0x64] true
  exact ⟨_, _, side'', hstands⟩

end Arrival

end Hosted

end Playground
