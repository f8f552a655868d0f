/-
Searching a range of numbers by halving it: three-way answers steer the search, and over
answers in order it misses nothing.
-/
import Mathlib.Data.Int.Order.Basic
import Mathlib.Data.Nat.Log

namespace Bisect

variable (order : Nat → Int)

/-- The number found in `[lo, hi)`, if one is, and how many were asked about. -/
def search (lo hi : Nat) : Option Nat × Nat :=
  if lo < hi then
    let mid := lo + (hi - lo) / 2
    if order mid = 0 then (some mid, 1)
    else if order mid < 0 then
      let (found, asked) := search lo mid
      (found, asked + 1)
    else
      let (found, asked) := search (mid + 1) hi
      (found, asked + 1)
  else (none, 0)
termination_by hi - lo

/-- Of two numbers the later is not answered with more: first those the key is past, then
those it equals, then those it is before. -/
def InOrder (n : Nat) : Prop :=
  ∀ i j, i ≤ j → j < n → (order j).sign ≤ (order i).sign

variable {order} {lo hi : Nat}

theorem search_empty (h : ¬ lo < hi) : search order lo hi = (none, 0) := by
  rw [search, if_neg h]

theorem search_hit (h : lo < hi) (hmid : order (lo + (hi - lo) / 2) = 0) :
    search order lo hi = (some (lo + (hi - lo) / 2), 1) := by
  rw [search, if_pos h]
  simp only [hmid, ↓reduceIte]

theorem search_below (h : lo < hi) (hmid : order (lo + (hi - lo) / 2) < 0) :
    search order lo hi = ((search order lo (lo + (hi - lo) / 2)).1,
      (search order lo (lo + (hi - lo) / 2)).2 + 1) := by
  rw [search, if_pos h]
  simp only [Int.ne_of_lt hmid, hmid, ↓reduceIte]

theorem search_above (h : lo < hi) (hmid : 0 < order (lo + (hi - lo) / 2)) :
    search order lo hi = ((search order (lo + (hi - lo) / 2 + 1) hi).1,
      (search order (lo + (hi - lo) / 2 + 1) hi).2 + 1) := by
  rw [search, if_pos h]
  simp only [(Int.ne_of_lt hmid).symm, Int.not_lt.mpr (Int.le_of_lt hmid), ↓reduceIte]

/-- The ways a search can go on, by the answer for the number in the middle. -/
theorem search_induction (order : Nat → Int) {motive : Nat → Nat → Prop}
    (empty : ∀ lo hi, ¬ lo < hi → motive lo hi)
    (hit : ∀ lo hi, lo < hi → order (lo + (hi - lo) / 2) = 0 → motive lo hi)
    (below : ∀ lo hi, lo < hi → order (lo + (hi - lo) / 2) < 0 →
      motive lo (lo + (hi - lo) / 2) → motive lo hi)
    (above : ∀ lo hi, lo < hi → 0 < order (lo + (hi - lo) / 2) →
      motive (lo + (hi - lo) / 2 + 1) hi → motive lo hi)
    (lo hi : Nat) : motive lo hi := by
  by_cases h : lo < hi
  · rcases Int.lt_trichotomy (order (lo + (hi - lo) / 2)) 0 with hneg | hzero | hpos
    · exact below lo hi h hneg (search_induction order empty hit below above _ _)
    · exact hit lo hi h hzero
    · exact above lo hi h hpos (search_induction order empty hit below above _ _)
  · exact empty lo hi h
termination_by hi - lo

/-- What is found is in the range and was answered as equal. -/
theorem search_sound {i : Nat} (h : (search order lo hi).1 = some i) :
    lo ≤ i ∧ i < hi ∧ order i = 0 := by
  induction lo, hi using search_induction order with
  | empty lo hi hempty => simp [search_empty hempty] at h
  | hit lo hi hlt hzero =>
      simp only [search_hit hlt hzero, Option.some.injEq] at h
      subst h
      exact ⟨by omega, by omega, hzero⟩
  | below lo hi hlt hneg ih =>
      rw [search_below hlt hneg] at h
      obtain ⟨hlo, hhi, hi0⟩ := ih h
      exact ⟨hlo, by omega, hi0⟩
  | above lo hi hlt hpos ih =>
      rw [search_above hlt hpos] at h
      obtain ⟨hlo, hhi, hi0⟩ := ih h
      exact ⟨by omega, hhi, hi0⟩

/-- Over answers in order, a number answered as equal is not passed over. -/
theorem search_complete {n i : Nat} (horder : InOrder order n) (hn : hi ≤ n) (hlo : lo ≤ i)
    (hhi : i < hi) (hi0 : order i = 0) : (search order lo hi).1 ≠ none := by
  induction lo, hi using search_induction order with
  | empty lo hi hempty => omega
  | hit lo hi hlt hzero => simp [search_hit hlt hzero]
  | below lo hi hlt hneg ih =>
      rw [search_below hlt hneg]
      refine ih (by omega) hlo ?_
      by_contra hnot
      have hle := horder (lo + (hi - lo) / 2) i (by omega) (by omega)
      rw [hi0, Int.sign_eq_neg_one_of_neg hneg] at hle
      exact absurd hle (by decide)
  | above lo hi hlt hpos ih =>
      rw [search_above hlt hpos]
      refine ih hn ?_ hhi
      by_contra hnot
      have hle := horder i (lo + (hi - lo) / 2) (by omega) (by omega)
      rw [hi0, Int.sign_eq_one_of_pos hpos] at hle
      exact absurd hle (by decide)

/-- A search asks about one number for each halving of the range. -/
theorem asked_le : (search order lo hi).2 ≤ if lo < hi then Nat.log 2 (hi - lo) + 1 else 0 := by
  have half : ∀ a b lo hi : Nat, lo < hi → b - a ≤ (hi - lo) / 2 →
      (if a < b then Nat.log 2 (b - a) + 1 else 0) ≤ Nat.log 2 (hi - lo) := by
    intro a b lo hi hlt hle
    by_cases hab : a < b
    · have hmono := Nat.log_mono_right (b := 2) hle
      rw [Nat.log_div_base] at hmono
      have hpos : 0 < Nat.log 2 (hi - lo) := Nat.log_pos (by omega) (by omega)
      rw [if_pos hab]
      omega
    · rw [if_neg hab]
      exact Nat.zero_le _
  induction lo, hi using search_induction order with
  | empty lo hi hempty => simp [search_empty hempty]
  | hit lo hi hlt hzero =>
      rw [search_hit hlt hzero, if_pos hlt]
      exact Nat.le_add_left 1 _
  | below lo hi hlt hneg ih =>
      rw [search_below hlt hneg, if_pos hlt]
      exact Nat.succ_le_succ (ih.trans (half _ _ _ _ hlt (by omega)))
  | above lo hi hlt hpos ih =>
      rw [search_above hlt hpos, if_pos hlt]
      exact Nat.succ_le_succ (ih.trans (half _ _ _ _ hlt (by omega)))

end Bisect
