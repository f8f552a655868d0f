/-
Tables of entries by key, of which the first for a key counts.
-/
import Mathlib.Algebra.BigOperators.Group.List.Basic
import Mathlib.Algebra.GroupWithZero.Nat
import Mathlib.Data.List.Basic

namespace Tables

variable {κ α : Type*} [DecidableEq κ]

/-- The table with `value` at `key`. -/
def set (key : κ) (value : α) : List (κ × α) → List (κ × α)
  | [] => [(key, value)]
  | entry :: rest => if entry.1 = key then (key, value) :: rest else entry :: set key value rest

theorem lookup_set_self (key : κ) (value : α) (table : List (κ × α)) :
    (set key value table).lookup key = some value := by
  induction table with
  | nil => simp [set]
  | cons entry rest ih =>
      rw [set]
      split
      · simp
      · rename_i hne
        rw [List.lookup_cons, beq_false_of_ne (Ne.symm hne)]
        exact ih

theorem set_of_lookup {key : κ} {value : α} {table : List (κ × α)}
    (h : table.lookup key = some value) : set key value table = table := by
  induction table with
  | nil => cases h
  | cons entry rest ih =>
      obtain ⟨k, v⟩ := entry
      rw [List.lookup_cons] at h
      by_cases heq : key = k
      · subst heq
        rw [beq_self_eq_true] at h
        cases h
        rw [set, if_pos rfl]
      · rw [beq_false_of_ne heq] at h
        rw [set, if_neg (Ne.symm heq), ih h]

theorem keys_set (key : κ) (value : α) (table : List (κ × α)) :
    (set key value table).map Prod.fst =
      if key ∈ table.map Prod.fst then table.map Prod.fst else table.map Prod.fst ++ [key] := by
  induction table with
  | nil => rfl
  | cons entry rest ih =>
      rw [set]
      split
      next heq => simp [heq]
      next hne =>
        have hmem : key ∈ (entry :: rest).map Prod.fst ↔ key ∈ rest.map Prod.fst := by
          rw [List.map_cons, List.mem_cons]
          exact ⟨fun h => h.resolve_left (Ne.symm hne), .inr⟩
        rw [List.map_cons, ih]
        simp only [hmem]
        split <;> rfl

theorem nodup_keys_set {key : κ} {value : α} {table : List (κ × α)}
    (h : (table.map Prod.fst).Nodup) : ((set key value table).map Prod.fst).Nodup := by
  rw [keys_set]
  split
  · exact h
  next hnew =>
    rw [List.nodup_append]
    refine ⟨h, List.pairwise_singleton _ _, ?_⟩
    rintro a ha b hb rfl
    exact hnew (List.mem_singleton.mp hb ▸ ha)

theorem mem_set {key : κ} {value : α} {table : List (κ × α)} {entry : κ × α}
    (h : entry ∈ set key value table) : entry = (key, value) ∨ entry ∈ table := by
  induction table with
  | nil => exact .inl (List.mem_singleton.mp h)
  | cons first rest ih =>
      rw [set] at h
      split at h
      · exact (List.mem_cons.mp h).imp_right (List.mem_cons_of_mem _)
      · rcases List.mem_cons.mp h with rfl | hrest
        · exact .inr List.mem_cons_self
        · exact (ih hrest).imp_right (List.mem_cons_of_mem _)

theorem length_set (key : κ) (value : α) (table : List (κ × α)) :
    (set key value table).length =
      if key ∈ table.map Prod.fst then table.length else table.length + 1 := by
  have hlen := congrArg List.length (keys_set key value table)
  rw [List.length_map] at hlen
  rw [hlen]
  split
  · rw [List.length_map]
  · rw [List.length_append, List.length_map, List.length_singleton]

theorem mem_of_lookup {key : κ} {value : α} {table : List (κ × α)}
    (h : table.lookup key = some value) : (key, value) ∈ table := by
  induction table with
  | nil => cases h
  | cons entry rest ih =>
      obtain ⟨k, v⟩ := entry
      rw [List.lookup_cons] at h
      split at h
      next heq =>
        cases h
        rw [eq_of_beq heq]
        exact List.mem_cons_self
      next => exact List.mem_cons_of_mem _ (ih h)

theorem mem_keys_iff (key : κ) (table : List (κ × α)) :
    key ∈ table.map Prod.fst ↔ (table.lookup key).isSome := by
  induction table with
  | nil => simp
  | cons entry rest ih =>
      obtain ⟨k, v⟩ := entry
      rw [List.map_cons, List.mem_cons, List.lookup_cons, ih]
      by_cases heq : key = k
      · rw [beq_iff_eq.mpr heq]
        exact ⟨fun _ => rfl, fun _ => .inl heq⟩
      · rw [beq_false_of_ne heq]
        exact ⟨fun h => h.resolve_left heq, .inr⟩

/-- A sum over the entries changes by what the entry of the key had. -/
theorem sum_set (f : α → Nat) (key : κ) (value : α) (table : List (κ × α)) :
    ((set key value table).map fun entry => f entry.2).sum +
        ((table.lookup key).map f).getD 0 =
      (table.map fun entry => f entry.2).sum + f value := by
  induction table with
  | nil => simp [set]
  | cons entry rest ih =>
      obtain ⟨k, v⟩ := entry
      rw [set, List.lookup_cons]
      by_cases heq : k = key
      · subst heq
        simp only [beq_self_eq_true, ↓reduceIte, List.map_cons, List.sum_cons, Option.map_some,
          Option.getD_some]
        omega
      · rw [if_neg heq, beq_false_of_ne (Ne.symm heq)]
        simp only [List.map_cons, List.sum_cons]
        omega

end Tables
