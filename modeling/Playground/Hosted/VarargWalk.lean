/-
The places the walker of the variable arguments reads: registers while the kind's file lasts,
then the slots above the stack pointer, shared by both kinds.
-/
import Playground.Hosted.Varargs

namespace Playground

namespace Hosted

open Exec

/-- What a call of the walker asks for. -/
inductive ArgRequest where
  | int
  | double
deriving DecidableEq, Repr

/-- Where an argument is. -/
inductive ArgPlace where
  | x (i : Nat)
  | d (i : Nat)
  | slot (i : Nat)
deriving DecidableEq, Repr

namespace ArgPlace

/-- The bits there, zero for a slot that cannot be read. -/
def bits (m : Machine) : ArgPlace → Word
  | x i => m.regs.gprValue i true
  | d i => (m.regs.readFprBits i).2
  | slot i =>
      match m.mem.readU64 (m.regs.sp + BitVec.ofNat 64 (8 * i)) with
      | .ok value => value
      | .error _ => 0

def slot? : ArgPlace → Option Nat
  | slot i => some i
  | _ => none

end ArgPlace

section Convention

variable (firstGp : Nat) (earlier requests : List ArgRequest)

/-- How many of the requests found no register: the integers have those from the first
unnamed one through x7, the doubles d0 through d7. -/
def spilled : Nat :=
  (requests.count .int - (8 - firstGp)) + (requests.count .double - 8)

/-- Where the convention puts an argument requested after `earlier`. -/
def placeOf : ArgRequest → ArgPlace
  | .int =>
      if firstGp + earlier.count .int ≤ 7 then .x (firstGp + earlier.count .int)
      else .slot (spilled firstGp earlier)
  | .double =>
      if earlier.count .double ≤ 7 then .d (earlier.count .double)
      else .slot (spilled firstGp earlier)

/-- The places of a run of requests. -/
def places (firstGp : Nat) : List ArgRequest → List ArgRequest → List ArgPlace
  | _, [] => []
  | earlier, r :: requests =>
      placeOf firstGp earlier r :: places firstGp (earlier ++ [r]) requests

@[simp] theorem length_places :
    (places firstGp earlier requests).length = requests.length := by
  induction requests generalizing earlier with
  | nil => rfl
  | cons r requests ih => exact congrArg (· + 1) (ih (earlier ++ [r]))

theorem getElem?_places (i : Nat) :
    (places firstGp earlier requests)[i]? =
      requests[i]?.map (placeOf firstGp (earlier ++ requests.take i)) := by
  induction requests generalizing earlier i with
  | nil => rfl
  | cons r requests ih =>
      cases i with
      | zero => simp [places]
      | succ i => simpa [places] using ih (earlier ++ [r]) i

/-- A request takes a slot exactly when it adds to the spilled ones. -/
theorem spilled_snoc (r : ArgRequest) :
    spilled firstGp (earlier ++ [r]) =
      spilled firstGp earlier + ((placeOf firstGp earlier r).slot?.toList).length := by
  cases r
  · by_cases hleft : firstGp + earlier.count .int ≤ 7
    · simp [spilled, placeOf, hleft, ArgPlace.slot?]
      omega
    · simp [spilled, placeOf, hleft, ArgPlace.slot?]
      omega
  · by_cases hleft : earlier.count .double ≤ 7
    · simp [spilled, placeOf, hleft, ArgPlace.slot?]
      omega
    · simp [spilled, placeOf, hleft, ArgPlace.slot?]
      omega

theorem slot?_placeOf {r : ArgRequest} {i : Nat}
    (h : (placeOf firstGp earlier r).slot? = some i) : i = spilled firstGp earlier := by
  cases r <;> simp only [placeOf] at h <;> split at h <;>
    simp only [ArgPlace.slot?, reduceCtorEq, Option.some.injEq] at h <;> exact h.symm

/-- The slots are taken one after the other, whichever kind asks. -/
theorem slots_places :
    (places firstGp earlier requests).filterMap ArgPlace.slot? =
      List.range' (spilled firstGp earlier)
        (spilled firstGp (earlier ++ requests) - spilled firstGp earlier) ∧
    spilled firstGp earlier ≤ spilled firstGp (earlier ++ requests) := by
  induction requests generalizing earlier with
  | nil => simp [places]
  | cons r requests ih =>
      obtain ⟨hslots, hle⟩ := ih (earlier ++ [r])
      have hsnoc := spilled_snoc firstGp earlier r
      simp only [List.append_assoc, List.singleton_append] at hslots hle
      rw [places, List.filterMap_cons]
      cases hplace : (placeOf firstGp earlier r).slot? with
      | none =>
          rw [hplace] at hsnoc
          simp only [Option.toList_none, List.length_nil, Nat.add_zero] at hsnoc
          rw [hsnoc] at hslots hle
          exact ⟨hslots, hle⟩
      | some i =>
          rw [hplace] at hsnoc
          simp only [Option.toList_some, List.length_singleton] at hsnoc
          rw [hsnoc] at hslots hle
          have hcount : spilled firstGp (earlier ++ r :: requests) - spilled firstGp earlier =
              spilled firstGp (earlier ++ r :: requests) - (spilled firstGp earlier + 1) + 1 := by
            omega
          refine ⟨?_, by omega⟩
          rw [hcount, List.range'_succ, ← hslots, slot?_placeOf firstGp earlier hplace]

/-- The cursor after these requests. -/
def cursorAt : ArgCursor :=
  ⟨max firstGp (min 8 (firstGp + earlier.count .int)), min 8 (earlier.count .double),
    8 * spilled firstGp earlier⟩

end Convention

namespace ArgCursor

/-- What a request reads, and the cursor past it. -/
def answer (c : ArgCursor) (m : Machine) : ArgRequest → Word × ArgCursor
  | .int => c.int m
  | .double => c.double m

variable (firstGp : Nat) (earlier : List ArgRequest) (m : Machine)

/-- One request reads its place, and the cursor has taken it. -/
theorem answer_cursorAt (r : ArgRequest) :
    (cursorAt firstGp earlier).answer m r =
      ((placeOf firstGp earlier r).bits m, cursorAt firstGp (earlier ++ [r])) := by
  have hsnoc := spilled_snoc firstGp earlier r
  cases r with
  | int =>
      by_cases hleft : firstGp + earlier.count .int ≤ 7
      · have hgp : (cursorAt firstGp earlier).gpIdx = firstGp + earlier.count .int := by
          simp only [cursorAt]
          omega
        simp only [placeOf, hleft, if_true, ArgPlace.slot?, Option.toList_none, List.length_nil,
          Nat.add_zero] at hsnoc
        simp only [answer, int, hgp, hleft, if_true, placeOf, ArgPlace.bits, Prod.mk.injEq,
          true_and]
        simp only [cursorAt, hsnoc, List.count_append, List.count_singleton, beq_self_eq_true,
          if_true, ArgCursor.mk.injEq, and_true]
        simp
        omega
      · have hgp : ¬ (cursorAt firstGp earlier).gpIdx ≤ 7 := by
          simp only [cursorAt]
          omega
        simp only [placeOf, hleft, if_false, ArgPlace.slot?, Option.toList_some,
          List.length_singleton] at hsnoc
        simp only [answer, int, hgp, if_false, placeOf, hleft, ArgPlace.bits, spill,
          Prod.mk.injEq]
        refine ⟨rfl, ?_⟩
        simp only [cursorAt, hsnoc, List.count_append, ArgCursor.mk.injEq]
        simp
        omega
  | double =>
      by_cases hleft : earlier.count .double ≤ 7
      · have hfp : (cursorAt firstGp earlier).fpIdx = earlier.count .double := by
          simp only [cursorAt]
          omega
        simp only [placeOf, hleft, if_true, ArgPlace.slot?, Option.toList_none, List.length_nil,
          Nat.add_zero] at hsnoc
        simp only [answer, double, hfp, hleft, if_true, placeOf, ArgPlace.bits, Prod.mk.injEq,
          true_and]
        simp only [cursorAt, hsnoc, List.count_append, ArgCursor.mk.injEq]
        simp
        omega
      · have hfp : ¬ (cursorAt firstGp earlier).fpIdx ≤ 7 := by
          simp only [cursorAt]
          omega
        simp only [placeOf, hleft, if_false, ArgPlace.slot?, Option.toList_some,
          List.length_singleton] at hsnoc
        simp only [answer, double, hfp, if_false, placeOf, hleft, ArgPlace.bits, spill,
          Prod.mk.injEq]
        refine ⟨rfl, ?_⟩
        simp only [cursorAt, hsnoc, List.count_append, ArgCursor.mk.injEq]
        simp
        omega

end ArgCursor

namespace VarargWalker

def next (w : VarargWalker) : ArgRequest → Exec (Word × VarargWalker)
  | .int => w.nextInt
  | .double => w.nextDouble

/-- The walker through a run of requests. -/
def walk : VarargWalker → List ArgRequest → Exec (List Word × VarargWalker)
  | w, [] => return ([], w)
  | w, r :: requests => do
      let (value, w) ← w.next r
      let (values, w) ← w.walk requests
      return (value :: values, w)

variable {m₀ m : Machine}

/-- One request leaves registers and memory, and answers as its cursor does. -/
theorem run_next (w : VarargWalker) (h : SameView m₀ m) (r : ArgRequest) :
    ∃ m' w', (w.next r).run m = (m', .ok ((w.answer m₀ r).1, w')) ∧ SameView m₀ m' ∧
      w'.toArgCursor = (w.answer m₀ r).2 := by
  cases r with
  | int => exact w.run_nextInt h
  | double => exact w.run_nextDouble h

theorem run_walk_from (firstGp : Nat) (earlier requests : List ArgRequest) (w : VarargWalker)
    (hw : w.toArgCursor = cursorAt firstGp earlier) (h : SameView m₀ m) :
    ∃ m' w', (w.walk requests).run m =
        (m', .ok ((places firstGp earlier requests).map (·.bits m₀), w')) ∧ SameView m₀ m' ∧
      w'.toArgCursor = cursorAt firstGp (earlier ++ requests) := by
  induction requests generalizing earlier w m with
  | nil => exact ⟨m, w, rfl, h, by simpa using hw⟩
  | cons r requests ih =>
      obtain ⟨m₁, w₁, hnext, hview, hcursor⟩ := w.run_next h r
      rw [hw, ArgCursor.answer_cursorAt] at hnext hcursor
      obtain ⟨m', w', hrest, hview', hcursor'⟩ := ih (earlier ++ [r]) w₁ hcursor hview
      refine ⟨m', w', ?_, hview', by simpa using hcursor'⟩
      rw [walk, run_bind, hnext]
      simp only [run_bind, hrest]
      rfl

/-- The walker from a call's first unnamed register reads every argument at its place of the
calling convention: the integers in the registers left through x7, the doubles in d0 through
d7, and each one past its file in the next slot of the stack. -/
theorem run_walk (firstGp : Nat) (requests : List ArgRequest) (m : Machine) :
    (∃ m' w', ((new firstGp).walk requests).run m =
        (m', .ok ((places firstGp [] requests).map (·.bits m), w')) ∧ SameView m m') ∧
      (∀ i, (places firstGp [] requests)[i]? =
        requests[i]?.map (placeOf firstGp (requests.take i))) ∧
      (places firstGp [] requests).filterMap ArgPlace.slot? =
        List.range (spilled firstGp requests) := by
  have hstart : spilled firstGp [] = 0 := by simp [spilled]
  refine ⟨?_, ?_, ?_⟩
  · have hnew : (new firstGp).toArgCursor = cursorAt firstGp [] := by
      simp only [new, cursorAt, hstart, ArgCursor.mk.injEq]
      simp
    obtain ⟨m', w', hrun, hview, -⟩ :=
      run_walk_from firstGp [] requests (new firstGp) hnew (SameView.refl m)
    exact ⟨m', w', hrun, hview⟩
  · exact getElem?_places firstGp [] requests
  · obtain ⟨hslots, -⟩ := slots_places firstGp [] requests
    rw [hslots, hstart, List.range_eq_range', List.nil_append, Nat.sub_zero]

end VarargWalker

end Hosted

end Playground
