/-
Occurrences of a value in a list: the nearest one before or after a place is known by how
many there are up to it.
-/
import Mathlib

namespace Playground

namespace Occurrences

variable {α : Type*} [BEq α] {a : α} {xs : List α} {i j : Nat}

theorem count_take_succ (xs : List α) (a : α) (i : Nat) :
    (xs.take (i + 1)).count a = (xs.take i).count a + (xs[i]?.toList).count a := by
  rw [List.take_add_one, List.count_append]

theorem count_take_mono (h : i ≤ j) : (xs.take i).count a ≤ (xs.take j).count a := by
  induction j, h using Nat.le_induction with
  | base => exact Nat.le_refl _
  | succ j h ih =>
      rw [count_take_succ]
      omega

variable [LawfulBEq α]

theorem count_take_succ_of_eq (h : xs[i]? = some a) :
    (xs.take (i + 1)).count a = (xs.take i).count a + 1 := by
  rw [count_take_succ, h]
  simp

theorem count_take_succ_of_ne (h : xs[i]? ≠ some a) :
    (xs.take (i + 1)).count a = (xs.take i).count a := by
  rw [count_take_succ]
  cases hx : xs[i]? with
  | none => rfl
  | some x =>
      have hne : x ≠ a := by
        rintro rfl
        exact h hx
      simp [hne]

/-- Each occurrence has a number of its own. -/
theorem eq_of_count_take_eq (hi : xs[i]? = some a) (hj : xs[j]? = some a)
    (h : (xs.take i).count a = (xs.take j).count a) : i = j := by
  rcases Nat.lt_trichotomy i j with hlt | heq | hlt
  · have hmono := @count_take_mono _ _ a xs _ _ (Nat.succ_le_of_lt hlt)
    rw [Nat.succ_eq_add_one, count_take_succ_of_eq hi] at hmono
    omega
  · exact heq
  · have hmono := @count_take_mono _ _ a xs _ _ (Nat.succ_le_of_lt hlt)
    rw [Nat.succ_eq_add_one, count_take_succ_of_eq hj] at hmono
    omega

theorem exists_nearest_before (h : 0 < (xs.take i).count a) :
    ∃ j < i, xs[j]? = some a ∧ (∀ k, j < k → k < i → xs[k]? ≠ some a) ∧
      (xs.take j).count a + 1 = (xs.take i).count a := by
  induction i with
  | zero => simp at h
  | succ i ih =>
      by_cases hi : xs[i]? = some a
      · exact ⟨i, Nat.lt_succ_self i, hi, fun k hik hki => by omega,
          (count_take_succ_of_eq hi).symm⟩
      · rw [count_take_succ_of_ne hi] at h
        obtain ⟨j, hji, hj, hnone, hcount⟩ := ih h
        refine ⟨j, by omega, hj, fun k hjk hki => ?_, ?_⟩
        · rcases Nat.lt_succ_iff_lt_or_eq.1 hki with hlt | rfl
          · exact hnone k hjk hlt
          · exact hi
        · rw [hcount, count_take_succ_of_ne hi]

/-- What occurs from a place on has a first occurrence there. -/
theorem exists_nearest_after (h : (xs.take i).count a < xs.count a) :
    ∃ j, i ≤ j ∧ xs[j]? = some a ∧ (∀ k, i ≤ k → k < j → xs[k]? ≠ some a) ∧
      (xs.take j).count a = (xs.take i).count a := by
  induction hn : xs.length - i generalizing i with
  | zero =>
      rw [List.take_of_length_le (by omega)] at h
      exact absurd h (Nat.lt_irrefl _)
  | succ n ih =>
      by_cases hi : xs[i]? = some a
      · exact ⟨i, Nat.le_refl i, hi, fun k hik hki => by omega, rfl⟩
      · have hcount := count_take_succ_of_ne hi
        obtain ⟨j, hij, hj, hnone, hsame⟩ := @ih (i + 1) (by omega) (by omega)
        refine ⟨j, by omega, hj, fun k hik hkj => ?_, by omega⟩
        rcases Nat.eq_or_lt_of_le hik with rfl | hlt
        · exact hi
        · exact hnone k hlt hkj

end Occurrences

end Playground
