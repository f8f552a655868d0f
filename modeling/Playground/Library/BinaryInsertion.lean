/-
Sorting by binary insertion: each element goes into the sorted run in front of it, behind all
it is not before, and its place there is found by halving the run.
-/
import Mathlib.Algebra.GroupWithZero.Nat
import Mathlib.Data.List.Perm.Basic
import Playground.Library.Bisect

namespace BinaryInsertion

/-- The place found in `[lo, hi)`, left of a negative answer and right of any other, and how
many were asked for. -/
def bound (answer : Nat → Int) (lo hi : Nat) : Nat × Nat :=
  if lo < hi then
    let mid := lo + (hi - lo) / 2
    if answer mid < 0 then
      let (place, asked) := bound answer lo mid
      (place, asked + 1)
    else
      let (place, asked) := bound answer (mid + 1) hi
      (place, asked + 1)
  else (lo, 0)
termination_by hi - lo

section Bound

variable {answer : Nat → Int} {lo hi : Nat}

theorem bound_empty (h : ¬ lo < hi) : bound answer lo hi = (lo, 0) := by
  rw [bound, if_neg h]

theorem bound_below (h : lo < hi) (hmid : answer (lo + (hi - lo) / 2) < 0) :
    bound answer lo hi = ((bound answer lo (lo + (hi - lo) / 2)).1,
      (bound answer lo (lo + (hi - lo) / 2)).2 + 1) := by
  rw [bound, if_pos h]
  simp only [hmid, ↓reduceIte]

theorem bound_above (h : lo < hi) (hmid : ¬ answer (lo + (hi - lo) / 2) < 0) :
    bound answer lo hi = ((bound answer (lo + (hi - lo) / 2 + 1) hi).1,
      (bound answer (lo + (hi - lo) / 2 + 1) hi).2 + 1) := by
  rw [bound, if_pos h]
  simp only [hmid, ↓reduceIte]

/-- The ways the halving can go on, by the answer for the number in the middle. -/
theorem bound_induction (answer : Nat → Int) {motive : Nat → Nat → Prop}
    (empty : ∀ lo hi, ¬ lo < hi → motive lo hi)
    (below : ∀ lo hi, lo < hi → answer (lo + (hi - lo) / 2) < 0 →
      motive lo (lo + (hi - lo) / 2) → motive lo hi)
    (above : ∀ lo hi, lo < hi → ¬ answer (lo + (hi - lo) / 2) < 0 →
      motive (lo + (hi - lo) / 2 + 1) hi → motive lo hi)
    (lo hi : Nat) : motive lo hi := by
  by_cases h : lo < hi
  · by_cases hmid : answer (lo + (hi - lo) / 2) < 0
    · exact below lo hi h hmid (bound_induction answer empty below above _ _)
    · exact above lo hi h hmid (bound_induction answer empty below above _ _)
  · exact empty lo hi h
termination_by hi - lo

/-- Over answers that stay negative once they are, the place parts them. -/
theorem bound_parts {n : Nat} (horder : ∀ i j, i ≤ j → j < n → answer i < 0 → answer j < 0)
    (hn : hi ≤ n) : (∀ i, lo ≤ i → i < (bound answer lo hi).1 → ¬ answer i < 0) ∧
      ∀ i, (bound answer lo hi).1 ≤ i → i < hi → answer i < 0 := by
  induction lo, hi using bound_induction answer with
  | empty lo hi hempty =>
      rw [bound_empty hempty]
      exact ⟨fun i hlo hhi => absurd hlo (Nat.not_le.mpr hhi), fun i hlo hhi =>
        absurd (Nat.lt_of_le_of_lt hlo hhi) hempty⟩
  | below lo hi hlt hneg ih =>
      rw [bound_below hlt hneg]
      obtain ⟨hbefore, hbehind⟩ := ih (by omega)
      refine ⟨hbefore, fun i hplace hend => ?_⟩
      rcases Nat.lt_or_ge i (lo + (hi - lo) / 2) with hlow | hhigh
      · exact hbehind i hplace hlow
      · exact horder _ i hhigh (by omega) hneg
  | above lo hi hlt hpos ih =>
      rw [bound_above hlt hpos]
      obtain ⟨hbefore, hbehind⟩ := ih hn
      refine ⟨fun i hlo hplace => ?_, hbehind⟩
      rcases Nat.lt_or_ge (lo + (hi - lo) / 2) i with hhigh | hlow
      · exact hbefore i hhigh hplace
      · exact fun hneg => hpos (horder i _ hlow (by omega) hneg)

/-- It is a search that nothing equals. -/
theorem bound_asked_eq : (bound answer lo hi).2 =
    (Bisect.search (fun i => if answer i < 0 then -1 else 1) lo hi).2 := by
  induction lo, hi using bound_induction answer with
  | empty lo hi hempty => rw [bound_empty hempty, Bisect.search_empty hempty]
  | below lo hi hlt hneg ih =>
      rw [bound_below hlt hneg, Bisect.search_below hlt (by simp [hneg]), ih]
  | above lo hi hlt hpos ih =>
      rw [bound_above hlt hpos, Bisect.search_above hlt (by simp [hpos]), ih]

theorem bound_asked_le (n : Nat) : (bound answer 0 n).2 ≤ Nat.log 2 n + 1 := by
  rw [bound_asked_eq]
  apply Bisect.asked_le.trans
  split
  · rw [Nat.sub_zero]
  · exact Nat.zero_le _

end Bound

variable {α : Type*} (order : α → α → Int)

/-- The answers for an element over a run. -/
def answers (run : List α) (x : α) (i : Nat) : Int := (run[i]?).elim 0 (order x)

/-- A run with one element more. -/
def place (run : List α) (x : α) : List α :=
  let cut := (bound (answers order run x) 0 run.length).1
  run.take cut ++ x :: run.drop cut

/-- A run with the elements of a list put in, one after the other. -/
def placeAll (run rest : List α) : List α := rest.foldl (place order) run

/-- How many comparisons that takes. -/
def asked (run : List α) : List α → Nat
  | [] => 0
  | x :: rest => (bound (answers order run x) 0 run.length).2 + asked (place order run x) rest

/-- The comparisons are those of a total preorder on the elements of a list. -/
structure Consistent (l : List α) : Prop where
  antisymm : ∀ a ∈ l, ∀ b ∈ l, order a b < 0 ↔ 0 < order b a
  trans : ∀ a ∈ l, ∀ b ∈ l, ∀ c ∈ l, order a b ≤ 0 → order b c ≤ 0 → order a c ≤ 0

/-- The elements of a list in order, those that compare as equal as they stood. -/
structure Sorts (l sorted : List α) : Prop where
  perm : sorted.Perm l
  inOrder : sorted.Pairwise fun a b => order a b ≤ 0
  stable : ∀ x ∈ l, sorted.filter (fun y => order x y = 0) = l.filter fun y => order x y = 0

variable {order}

theorem place_nil (x : α) : place order [] x = [x] := by
  rw [place, List.take_nil, List.drop_nil, List.nil_append]

theorem placeAll_cons (run : List α) (x : α) (rest : List α) :
    placeAll order run (x :: rest) = placeAll order (place order run x) rest := rfl

theorem length_place (run : List α) (x : α) : (place order run x).length = run.length + 1 := by
  rw [place, List.length_append, List.length_cons, Nat.add_succ, ← List.length_append,
    List.take_append_drop]

theorem perm_place (run : List α) (x : α) : (place order run x).Perm (run ++ [x]) := by
  refine List.perm_middle.trans (.trans ?_ (List.perm_append_singleton x run).symm)
  rw [List.take_append_drop]

theorem perm_placeAll (run rest : List α) : (placeAll order run rest).Perm (run ++ rest) := by
  induction rest generalizing run with
  | nil =>
      rw [List.append_nil]
      rfl
  | cons x rest ih =>
      have hplace : (place order run x ++ rest).Perm (run ++ [x] ++ rest) :=
        (perm_place run x).append_right rest
      rw [List.append_assoc, List.singleton_append] at hplace
      exact (ih (place order run x)).trans hplace

/-- Each element is asked about no more often than the run in front of it can be halved. -/
theorem asked_le (run rest : List α) : asked order run rest ≤
    ((List.range rest.length).map fun i => Nat.log 2 (run.length + i) + 1).sum := by
  induction rest generalizing run with
  | nil => exact Nat.le_refl 0
  | cons x rest ih =>
      rw [asked, List.length_cons, List.range_succ_eq_map, List.map_cons, List.sum_cons,
        List.map_map]
      refine Nat.add_le_add (bound_asked_le run.length) ((ih _).trans (le_of_eq ?_))
      rw [length_place]
      congr 2
      funext i
      exact congrArg (Nat.log 2 · + 1) (by omega)

section Consistent

variable {l run : List α} {x : α}

/-- In front of its place nothing is after the new element, and behind it all are. -/
theorem place_parts (h : Consistent order l) (hrun : ∀ y ∈ run, y ∈ l) (hx : x ∈ l)
    (hsorted : run.Pairwise fun a b => order a b ≤ 0) :
    ∃ front back, run = front ++ back ∧ place order run x = front ++ x :: back ∧
      (∀ y ∈ front, order y x ≤ 0) ∧ ∀ y ∈ back, order x y < 0 := by
  have hanswer : ∀ i (hi : i < run.length), answers order run x i = order x run[i] := by
    intro i hi
    rw [answers, List.getElem?_eq_getElem hi]
    rfl
  have hnotAfter : ∀ y ∈ run, ¬ order x y < 0 → order y x ≤ 0 := fun y hy hnot =>
    Int.not_lt.mp fun hpos => hnot ((h.antisymm x hx y (hrun y hy)).mpr hpos)
  have horder : ∀ i j, i ≤ j → j < run.length → answers order run x i < 0 →
      answers order run x j < 0 := by
    intro i j hij hj hneg
    rcases Nat.lt_or_eq_of_le hij with hlt | rfl
    · have hi : i < run.length := by omega
      have hyi := List.getElem_mem hi
      have hyj := List.getElem_mem hj
      rw [hanswer i hi] at hneg
      rw [hanswer j hj]
      by_contra hnot
      -- a later element that is not after the new one has no earlier one after it
      have hle := h.trans _ (hrun _ hyi) _ (hrun _ hyj) _ hx
        ((List.pairwise_iff_getElem.mp hsorted) i j hi hj hlt) (hnotAfter _ hyj hnot)
      exact absurd ((h.antisymm _ hx _ (hrun _ hyi)).mp hneg) (Int.not_lt.mpr hle)
    · exact hneg
  obtain ⟨hfront, hback⟩ := @bound_parts _ 0 _ _ horder le_rfl
  refine ⟨_, _, (List.take_append_drop _ _).symm, rfl, fun y hy => ?_, fun y hy => ?_⟩
  · obtain ⟨i, hi, rfl⟩ := List.mem_take_iff_getElem.mp hy
    have hlt : i < run.length := by omega
    have hnot := hfront i (Nat.zero_le i) (by omega)
    rw [hanswer i hlt] at hnot
    exact hnotAfter _ (List.getElem_mem hlt) hnot
  · obtain ⟨i, hi, rfl⟩ := List.mem_drop_iff_getElem.mp hy
    have hlt := (Nat.add_comm _ i).trans_lt hi
    have hneg := hback _ (Nat.le_add_right _ i) hlt
    rwa [hanswer _ hlt] at hneg

theorem pairwise_place (h : Consistent order l) (hrun : ∀ y ∈ run, y ∈ l) (hx : x ∈ l)
    (hsorted : run.Pairwise fun a b => order a b ≤ 0) :
    (place order run x).Pairwise fun a b => order a b ≤ 0 := by
  obtain ⟨front, back, rfl, hplace, hfront, hback⟩ := place_parts h hrun hx hsorted
  obtain ⟨hf, hb, hfb⟩ := List.pairwise_append.mp hsorted
  rw [hplace, List.pairwise_append, List.pairwise_cons]
  refine ⟨hf, ⟨fun y hy => Int.le_of_lt (hback y hy), hb⟩, fun a ha b hb => ?_⟩
  rcases List.mem_cons.mp hb with rfl | hb
  · exact hfront a ha
  · exact hfb a ha b hb

/-- The new element goes behind those it equals. -/
theorem filter_place (h : Consistent order l) (hrun : ∀ y ∈ run, y ∈ l) (hx : x ∈ l)
    (hsorted : run.Pairwise fun a b => order a b ≤ 0) {z : α} (hz : z ∈ l) :
    (place order run x).filter (fun y => order z y = 0) =
      (run ++ [x]).filter fun y => order z y = 0 := by
  obtain ⟨front, back, rfl, hplace, -, hback⟩ := place_parts h hrun hx hsorted
  rw [hplace, List.filter_append, List.filter_append, List.filter_append, List.filter_cons,
    List.filter_singleton, List.append_assoc]
  by_cases hzx : order z x = 0
  · have hnone : back.filter (fun y => order z y = 0) = [] := by
      rw [List.filter_eq_nil_iff]
      intro y hy
      have hyl := hrun y (List.mem_append_right _ hy)
      have hpos := (h.antisymm x hx y hyl).mp (hback y hy)
      rw [decide_eq_true_iff]
      intro hzy
      have hyz : order y z ≤ 0 := Int.not_lt.mp fun hlt =>
        absurd ((h.antisymm z hz y hyl).mpr hlt) (by omega)
      exact absurd (h.trans y hyl z hz x hx hyz (le_of_eq hzx)) (by omega)
    simp [hzx, hnone]
  · simp [hzx]

theorem placeAll_sorts (h : Consistent order l) {rest : List α}
    (hl : ∀ y ∈ run ++ rest, y ∈ l) (hsorted : run.Pairwise fun a b => order a b ≤ 0) :
    (placeAll order run rest).Pairwise (fun a b => order a b ≤ 0) ∧
      ∀ z ∈ l, (placeAll order run rest).filter (fun y => order z y = 0) =
        (run ++ rest).filter fun y => order z y = 0 := by
  induction rest generalizing run with
  | nil =>
      rw [List.append_nil]
      exact ⟨hsorted, fun z _ => rfl⟩
  | cons x rest ih =>
      have hrun : ∀ y ∈ run, y ∈ l := fun y hy => hl y (List.mem_append_left _ hy)
      have hx : x ∈ l := hl x (List.mem_append_right _ List.mem_cons_self)
      have hplaced : ∀ y ∈ place order run x ++ rest, y ∈ l := by
        intro y hy
        apply hl y
        rw [List.append_cons]
        exact ((perm_place run x).append_right rest).mem_iff.mp hy
      obtain ⟨hpairs, hstable⟩ := ih hplaced (pairwise_place h hrun hx hsorted)
      refine ⟨hpairs, fun z hz => (hstable z hz).trans ?_⟩
      rw [List.filter_append, filter_place h hrun hx hsorted hz, ← List.filter_append,
        List.append_assoc, List.singleton_append]

/-- Putting the elements in one after the other sorts them. -/
theorem sorts_placeAll (h : Consistent order l) : Sorts order l (placeAll order [] l) :=
  ⟨perm_placeAll [] l, (placeAll_sorts h (fun _ => id) .nil).1,
    (placeAll_sorts h (fun _ => id) .nil).2⟩

end Consistent

end BinaryInsertion
