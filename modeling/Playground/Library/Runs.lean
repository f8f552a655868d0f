/-
The maximal separator-free runs of a list, each with the place it starts at.
-/
import Mathlib.Data.List.TakeWhile
import Mathlib.Order.Basic

namespace Runs

variable {α : Type} (sep : α → Bool)

/-- The runs of a list whose first element stands at place `i`. -/
def runs : Nat → List α → List (Nat × List α)
  | _, [] => []
  | i, a :: l =>
      if sep a then runs (i + 1) l
      else
        match runs (i + 1) l with
        | [] => [(i, [a])]
        | (j, r) :: rest => if j = i + 1 then (i, a :: r) :: rest else (i, [a]) :: (j, r) :: rest

variable {sep}

@[simp]
theorem runs_nil (i : Nat) : runs sep i [] = [] := rfl

theorem runs_cons_sep {a : α} (h : sep a = true) (i : Nat) (l : List α) :
    runs sep i (a :: l) = runs sep (i + 1) l := by
  simp [runs, h]

/-- Separators in front start no run. -/
theorem runs_append_seps {seps : List α} (h : ∀ a ∈ seps, sep a = true) (i : Nat) (l : List α) :
    runs sep i (seps ++ l) = runs sep (i + seps.length) l := by
  induction seps generalizing i with
  | nil => rfl
  | cons a seps ih =>
      rw [List.cons_append, runs_cons_sep (h a (by simp)), ih fun b hb => h b (by simp [hb])]
      rw [List.length_cons]
      congr 1
      omega

/-- No run starts before its list does. -/
theorem le_of_mem_runs {i j : Nat} {l r : List α} (h : (j, r) ∈ runs sep i l) : i ≤ j := by
  induction l generalizing i j r with
  | nil => cases h
  | cons a l ih =>
      rw [runs] at h
      split at h
      · exact (ih h).trans' (Nat.le_succ i)
      · split at h
        · simp only [List.mem_singleton, Prod.mk.injEq] at h
          exact h.1.ge
        · next j' r' rest heq =>
            split at h
            · rcases List.mem_cons.mp h with hhead | hrest
              · exact (Prod.mk.inj hhead).1.ge
              · exact (ih (heq ▸ List.mem_cons_of_mem _ hrest)).trans' (Nat.le_succ i)
            · rcases List.mem_cons.mp h with hhead | hrest
              · exact (Prod.mk.inj hhead).1.ge
              · exact (ih (heq ▸ hrest)).trans' (Nat.le_succ i)

/-- What follows a run starts with a separator, or is nothing. -/
def Separated (sep : α → Bool) (l : List α) : Prop := ∀ a ∈ l.head?, sep a = true

/-- A run in front is the first. -/
theorem runs_append {r rest : List α} (hne : r ≠ []) (hr : ∀ a ∈ r, sep a = false)
    (hrest : Separated sep rest) (i : Nat) :
    runs sep i (r ++ rest) = (i, r) :: runs sep (i + r.length) rest := by
  induction r generalizing i with
  | nil => exact absurd rfl hne
  | cons a r ih =>
      have ha : ¬ sep a = true := by simp [hr a (by simp)]
      cases r with
      | nil =>
          rw [List.singleton_append, runs, if_neg ha]
          have hlate : ∀ j r', (j, r') ∈ runs sep (i + 1) rest → j ≠ i + 1 := by
            intro j r' hmem heq
            cases rest with
            | nil => cases hmem
            | cons b rest =>
                rw [runs_cons_sep (hrest b rfl)] at hmem
                have := le_of_mem_runs hmem
                omega
          cases hruns : runs sep (i + 1) rest with
          | nil => simp
          | cons first later =>
              obtain ⟨j, r'⟩ := first
              have hj := hlate j r' (by simp [hruns])
              simp [hj]
      | cons b r =>
          have hnext := ih (by simp) (fun c hc => hr c (by simp [hc])) (i + 1)
          rw [List.cons_append, runs, if_neg ha, hnext]
          simp only [↓reduceIte, List.length_cons]
          congr 2
          omega

/-- A list is separators, then a run, then what a separator leads. -/
theorem exists_split (sep : α → Bool) (l : List α) : ∃ seps r rest, l = seps ++ (r ++ rest) ∧
    (∀ a ∈ seps, sep a = true) ∧ (∀ a ∈ r, sep a = false) ∧ Separated sep rest ∧
    (r = [] → rest = []) := by
  refine ⟨l.takeWhile sep, (l.dropWhile sep).takeWhile (fun a => !sep a),
    (l.dropWhile sep).dropWhile (fun a => !sep a), ?_, ?_, ?_, ?_, ?_⟩
  · rw [List.takeWhile_append_dropWhile, List.takeWhile_append_dropWhile]
  · exact fun a ha => List.mem_takeWhile_imp ha
  · intro a ha
    simpa using List.mem_takeWhile_imp ha
  · intro a ha
    have hnot := List.head?_dropWhile_not (fun a => !sep a) (l.dropWhile sep)
    rw [Option.mem_def] at ha
    rw [ha] at hnot
    simpa using hnot
  · intro hnil
    cases hdrop : l.dropWhile sep with
    | nil => rfl
    | cons a t =>
        have hhead := List.head?_dropWhile_not sep l
        rw [hdrop] at hhead hnil
        simp only [List.head?_cons] at hhead
        simp [hhead] at hnil

end Runs
