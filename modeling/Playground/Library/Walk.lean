/-
Laying items end to end.  A walk puts each item where the one before it ends; the size
of an item may depend on its index and on where it starts.
-/
import Mathlib

namespace Walk

variable {α : Type*} (size : Nat → Nat → α → Nat)

/-- Where the walk ends that starts with index `idx` at `offset`. -/
def stop : Nat → Nat → List α → Nat
  | _, offset, [] => offset
  | idx, offset, a :: items => stop (idx + 1) (offset + size idx offset a) items

/-- Each item with the offset it starts at. -/
def positions : Nat → Nat → List α → List (Nat × α)
  | _, _, [] => []
  | idx, offset, a :: items =>
      (offset, a) :: positions (idx + 1) (offset + size idx offset a) items

theorem le_stop (idx offset : Nat) (items : List α) : offset ≤ stop size idx offset items := by
  induction items generalizing idx offset with
  | nil => exact Nat.le_refl _
  | cons a items ih => exact Nat.le_trans (Nat.le_add_right _ _) (ih _ _)

/-- An item after `before` starts where `before` ends. -/
theorem mem_positions (idx offset : Nat) (before : List α) (a : α) (after : List α) :
    (stop size idx offset before, a) ∈ positions size idx offset (before ++ a :: after) := by
  induction before generalizing idx offset with
  | nil => exact List.mem_cons_self
  | cons b before ih => exact List.mem_cons_of_mem _ (ih _ _)

theorem position_le_stop {idx offset : Nat} {items : List α} {entry : Nat × α}
    (h : entry ∈ positions size idx offset items) :
    offset ≤ entry.1 ∧ entry.1 ≤ stop size idx offset items := by
  induction items generalizing idx offset with
  | nil => simp [positions] at h
  | cons a items ih =>
      rcases List.mem_cons.mp h with rfl | h
      · exact ⟨Nat.le_refl _, le_stop size idx offset (a :: items)⟩
      · have hrest := ih h
        exact ⟨Nat.le_trans (Nat.le_add_right _ _) hrest.1, hrest.2⟩

end Walk
