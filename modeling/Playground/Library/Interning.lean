/-
Interning: a table that gives each key a cell of a growing list.  A key keeps the cell of
its first use, and two keys never share one.
-/
import Mathlib

namespace Interning

variable {K V : Type*} {cell : Nat → Nat} {slots slots' slots'' : K → Option Nat}
  {values values' values'' : List V} {denotes denotes' : K → V → Prop}

/-- Every key in the table has a cell of its own, with a value the key denotes. -/
structure Interns (cell : Nat → Nat) (slots : K → Option Nat) (values : List V)
    (denotes : K → V → Prop) : Prop where
  holds : ∀ key slot, slots key = some slot →
    ∃ i v, slot = cell i ∧ values[i]? = some v ∧ denotes key v
  apart : ∀ key key' slot, slots key = some slot → slots key' = some slot → key = key'

/-- A table that only grew. -/
structure Extends (slots : K → Option Nat) (values : List V) (slots' : K → Option Nat)
    (values' : List V) : Prop where
  slots : ∀ key slot, slots key = some slot → slots' key = some slot
  values : values <+: values'

theorem Extends.refl (slots : K → Option Nat) (values : List V) :
    Extends slots values slots values :=
  ⟨fun _ _ h => h, List.prefix_refl values⟩

theorem Extends.trans (h : Extends slots values slots' values')
    (h' : Extends slots' values' slots'' values'') : Extends slots values slots'' values'' where
  slots key slot hslot := h'.slots key slot (h.slots key slot hslot)
  values := h.values.trans h'.values

/-- A cell keeps its value. -/
theorem Extends.value (h : Extends slots values slots' values') {i : Nat} {v : V}
    (hv : values[i]? = some v) : values'[i]? = some v := by
  obtain ⟨more, hmore⟩ := h.values
  rw [← hmore, List.getElem?_append_left (List.getElem?_eq_some_iff.mp hv).1]
  exact hv

theorem Interns.empty : Interns cell (fun _ : K => none) ([] : List V) denotes := by
  constructor
  · intro key slot h
    cases h
  · intro key key' slot h
    cases h

theorem Interns.mono (h : Interns cell slots values denotes)
    (hd : ∀ key v, denotes key v → denotes' key v) : Interns cell slots values denotes' := by
  refine ⟨?_, h.apart⟩
  intro key slot hslot
  obtain ⟨i, v, hcell, hvalue, hdenotes⟩ := h.holds key slot hslot
  exact ⟨i, v, hcell, hvalue, hd key v hdenotes⟩

theorem extends_add [DecidableEq K] {key : K} (hnew : slots key = none) (slot : Nat) (v : V) :
    Extends slots values (Function.update slots key (some slot)) (values ++ [v]) := by
  refine ⟨?_, List.prefix_append values [v]⟩
  intro other slot' hslot
  have hne : other ≠ key := by
    rintro rfl
    rw [hnew] at hslot
    cases hslot
  rw [Function.update_of_ne hne]
  exact hslot

/-- A new key takes the cell after the last. -/
theorem Interns.add [DecidableEq K] (hcell : Function.Injective cell)
    (h : Interns cell slots values denotes) {key : K} {v : V} (hnew : slots key = none)
    (hv : denotes key v) :
    Interns cell (Function.update slots key (some (cell values.length))) (values ++ [v])
      denotes := by
  -- the cells in use come before the new one
  have hfresh : ∀ other, slots other ≠ some (cell values.length) := by
    intro other hother
    obtain ⟨i, w, hslot, hvalue, -⟩ := h.holds other _ hother
    obtain rfl := hcell hslot
    simp at hvalue
  constructor
  · intro other slot hslot
    by_cases hother : other = key
    · subst hother
      rw [Function.update_self] at hslot
      exact ⟨values.length, v, (Option.some.inj hslot).symm, by simp, hv⟩
    · rw [Function.update_of_ne hother] at hslot
      obtain ⟨i, w, hslot, hvalue, hdenotes⟩ := h.holds other slot hslot
      refine ⟨i, w, hslot, ?_, hdenotes⟩
      rw [List.getElem?_append_left (List.getElem?_eq_some_iff.mp hvalue).1]
      exact hvalue
  · intro a b slot ha hb
    by_cases hka : a = key
    · by_cases hkb : b = key
      · rw [hka, hkb]
      · rw [hka, Function.update_self] at ha
        rw [Function.update_of_ne hkb, ← ha] at hb
        exact absurd hb (hfresh b)
    · rw [Function.update_of_ne hka] at ha
      by_cases hkb : b = key
      · rw [hkb, Function.update_self] at hb
        rw [← hb] at ha
        exact absurd ha (hfresh a)
      · rw [Function.update_of_ne hkb] at hb
        exact h.apart a b slot ha hb

end Interning
