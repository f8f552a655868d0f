/-
Splitting a list at a separator and joining it again: how many pieces there are, what
they hold, and how splitting meets joining when the pieces have separators of their own.
-/
import Mathlib

namespace Playground

namespace Lines

variable {α : Type*} [BEq α] [LawfulBEq α] {a : α}

/-- There is one more piece than there are separators. -/
theorem length_splitOn (xs : List α) : (xs.splitOn a).length = xs.count a + 1 := by
  induction xs with
  | nil => simp
  | cons x xs ih =>
      rw [List.splitOn_cons_eq_if_modifyHead]
      by_cases hx : (x == a) = true
      · obtain rfl := eq_of_beq hx
        simp [ih]
      · rw [if_neg hx, List.length_modifyHead, ih, List.count_cons, if_neg hx]

/-- No piece has a separator. -/
theorem not_mem_of_mem_splitOn {xs piece : List α} (h : piece ∈ xs.splitOn a) : a ∉ piece := by
  induction xs generalizing piece with
  | nil =>
      obtain rfl : piece = [] := by simpa using h
      exact List.not_mem_nil
  | cons x xs ih =>
      rw [List.splitOn_cons_eq_if_modifyHead] at h
      by_cases hx : (x == a) = true
      · rw [if_pos hx] at h
        rcases List.mem_cons.1 h with rfl | hmem
        · exact List.not_mem_nil
        · exact ih hmem
      · rw [if_neg hx] at h
        obtain ⟨head, tail, hsplit⟩ := List.exists_cons_of_ne_nil (List.splitOn_ne_nil a xs)
        rw [hsplit, List.modifyHead_cons] at h
        rcases List.mem_cons.1 h with rfl | hmem
        · intro hmem
          rcases List.mem_cons.1 hmem with rfl | hmem
          · exact hx (beq_self_eq_true a)
          · exact ih (hsplit ▸ List.mem_cons_self) hmem
        · exact ih (hsplit ▸ List.mem_cons_of_mem head hmem)

/-- Joined lists split into the pieces of each. -/
theorem splitOn_intercalate (xss : List (List α)) (h : xss ≠ []) :
    (List.intercalate [a] xss).splitOn a = xss.flatMap (·.splitOn a) := by
  induction xss with
  | nil => exact absurd rfl h
  | cons xs xss ih =>
      cases xss with
      | nil => simp
      | cons ys xss =>
          rw [List.intercalate_cons_cons, List.append_assoc, List.singleton_append,
            List.splitOn_append_cons_self, ih (by simp)]
          simp

/-- The last piece is empty just when nothing follows the last separator. -/
theorem getLast_splitOn_eq_nil {xs : List α} :
    (xs.splitOn a).getLast? = some [] ↔ xs = [] ∨ xs.getLast? = some a := by
  induction xs with
  | nil => simp
  | cons x xs ih =>
      obtain ⟨head, tail, hsplit⟩ := List.exists_cons_of_ne_nil (List.splitOn_ne_nil a xs)
      have hlength := length_splitOn (a := a) xs
      rw [hsplit] at ih hlength
      rw [List.splitOn_cons_eq_if_modifyHead, hsplit]
      by_cases hx : (x == a) = true
      · obtain rfl := eq_of_beq hx
        rw [if_pos hx, List.getLast?_cons_cons, ih]
        cases xs <;> simp
      · have hne : x ≠ a := fun heq => hx (heq ▸ beq_self_eq_true a)
        rw [if_neg hx, List.modifyHead_cons]
        cases tail with
        | nil =>
            have hfree : a ∉ xs := List.count_eq_zero.1 (by simpa using hlength.symm)
            have hlast : xs.getLast? ≠ some a := fun h => hfree (List.mem_of_getLast? h)
            cases xs with
            | nil => simp [hne]
            | cons y xs => simp [List.getLast?_cons_cons, hlast]
        | cons next tail =>
            rw [List.getLast?_cons_cons, ← List.getLast?_cons_cons (a := head), ih]
            cases xs with
            | nil => simp at hlength
            | cons y xs => simp [List.getLast?_cons_cons]

theorem zip_flatMap {β γ δ : Type*} {f : β → List γ} {g : β → List δ} (xs : List β)
    (h : ∀ x ∈ xs, (f x).length = (g x).length) :
    (xs.flatMap f).zip (xs.flatMap g) = xs.flatMap fun x => (f x).zip (g x) := by
  induction xs with
  | nil => rfl
  | cons x xs ih =>
      obtain ⟨hx, hxs⟩ := List.forall_mem_cons.1 h
      rw [List.flatMap_cons, List.flatMap_cons, List.zip_append hx, ih hxs, List.flatMap_cons]

/-- Lists alike place by place, and in where their separators stand, have pieces alike. -/
theorem forall₂_splitOn {β : Type*} [BEq β] [LawfulBEq β] {b : β} {R : α → β → Prop}
    (hsep : ∀ x y, R x y → (x = a ↔ y = b)) {xs : List α} {ys : List β}
    (h : List.Forall₂ R xs ys) :
    List.Forall₂ (List.Forall₂ R) (xs.splitOn a) (ys.splitOn b) := by
  induction h with
  | nil => simp
  | @cons x y xs ys hxy hrest ih =>
      rw [List.splitOn_cons_eq_if_modifyHead, List.splitOn_cons_eq_if_modifyHead]
      by_cases hx : x = a
      · have hy : y = b := (hsep x y hxy).mp hx
        rw [if_pos (beq_iff_eq.mpr hx), if_pos (beq_iff_eq.mpr hy)]
        exact .cons .nil ih
      · have hy : y ≠ b := fun heq => hx ((hsep x y hxy).mpr heq)
        rw [if_neg (fun heq => hx (eq_of_beq heq)), if_neg (fun heq => hy (eq_of_beq heq))]
        obtain ⟨head, tail, hsplit⟩ := List.exists_cons_of_ne_nil (List.splitOn_ne_nil a xs)
        obtain ⟨head', tail', hsplit'⟩ := List.exists_cons_of_ne_nil (List.splitOn_ne_nil b ys)
        rw [hsplit, hsplit'] at ih ⊢
        cases ih with
        | cons hhead htail => exact .cons (.cons hxy hhead) htail

end Lines

end Playground
