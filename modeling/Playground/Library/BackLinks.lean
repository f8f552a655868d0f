/-
Lists some of whose entries are marked, and updates of the marked ones among the first
few.  An update can be made from the last marked entry back, one link at a time.
-/
import Mathlib

namespace BackLinks

variable {α : Type*} (marked : α → Prop) [DecidablePred marked]

/-- One more than the index of the last marked entry, 0 for none. -/
def last (l : List α) : Nat := l.length - l.reverse.findIdx fun a => decide (marked a)

/-- Apply `f` to each marked entry among the first `bound`. -/
def update (f : α → α) (bound : Nat) (l : List α) : List α :=
  l.mapIdx fun j a => if j < bound ∧ marked a then f a else a

@[simp]
theorem last_nil : last marked ([] : List α) = 0 := rfl

theorem last_concat (l : List α) (a : α) :
    last marked (l ++ [a]) = if marked a then l.length + 1 else last marked l := by
  unfold last
  rw [List.reverse_append, List.reverse_singleton, List.singleton_append, List.findIdx_cons,
    List.length_append, List.length_singleton]
  by_cases h : marked a <;> simp [h]

theorem last_le (l : List α) : last marked l ≤ l.length := Nat.sub_le _ _

/-- What `last` says of the entries: none is marked from there on, and the one before is. -/
theorem last_spec (l : List α) :
    (∀ j a, last marked l ≤ j → l[j]? = some a → ¬ marked a) ∧
      ∀ k, last marked l = k + 1 → ∃ a, l[k]? = some a ∧ marked a := by
  induction l using List.reverseRecOn with
  | nil => exact ⟨by simp, by simp⟩
  | append_singleton l a ih =>
      rw [last_concat]
      split
      · rename_i hmarked
        constructor
        · intro j b hj hb
          rw [List.getElem?_eq_none (by simpa using hj)] at hb
          cases hb
        · intro k hk
          obtain rfl : l.length = k := Nat.succ_injective hk
          exact ⟨a, List.getElem?_concat_length .., hmarked⟩
      · rename_i hplain
        constructor
        · intro j b hj hb
          rcases Nat.lt_or_ge j l.length with hlt | hge
          · rw [List.getElem?_append_left hlt] at hb
            exact ih.1 j b hj hb
          · rw [List.getElem?_append_right hge] at hb
            have hmem := List.mem_of_getElem? hb
            rw [List.mem_singleton] at hmem
            exact hmem ▸ hplain
        · intro k hk
          obtain ⟨b, hb, hmarked⟩ := ih.2 k hk
          have hlt : k < l.length := (List.getElem?_eq_some_iff.mp hb).1
          exact ⟨b, by rw [List.getElem?_append_left hlt, hb], hmarked⟩

variable {marked}

theorem not_marked_of_last_le {l : List α} {j : Nat} {a : α} (h : last marked l ≤ j)
    (ha : l[j]? = some a) : ¬ marked a :=
  (last_spec marked l).1 j a h ha

theorem marked_of_last {l : List α} {k : Nat} (h : last marked l = k + 1) :
    ∃ a, l[k]? = some a ∧ marked a :=
  (last_spec marked l).2 k h

section Update

variable {f : α → α} {l : List α} {bound : Nat}

theorem getElem?_update (f : α → α) (bound : Nat) (l : List α) (j : Nat) :
    (update marked f bound l)[j]? =
      l[j]?.map fun a => if j < bound ∧ marked a then f a else a := by
  unfold update
  rw [List.getElem?_mapIdx]

/-- Without a marked entry among the first `bound` there is nothing to do. -/
theorem update_eq_self (h : ∀ j a, j < bound → l[j]? = some a → marked a → f a = a) :
    update marked f bound l = l := by
  apply List.ext_getElem?
  intro j
  rw [getElem?_update]
  cases ha : l[j]? with
  | none => rfl
  | some a =>
      simp only [Option.map_some]
      split
      · rename_i hupdate
        rw [h j a hupdate.1 ha hupdate.2]
      · rfl

/-- The entries past the last marked one do not count. -/
theorem update_congr {bound' : Nat} (hle : bound' ≤ bound)
    (h : ∀ j a, bound' ≤ j → j < bound → l[j]? = some a → marked a → f a = a) :
    update marked f bound l = update marked f bound' l := by
  apply List.ext_getElem?
  intro j
  rw [getElem?_update, getElem?_update]
  cases ha : l[j]? with
  | none => rfl
  | some a =>
      simp only [Option.map_some]
      by_cases hmarked : marked a
      · by_cases hin : j < bound'
        · simp [hmarked, hin, Nat.lt_of_lt_of_le hin hle]
        · by_cases hout : j < bound
          · simp [hmarked, hin, hout, h j a (Nat.le_of_not_lt hin) hout ha hmarked]
          · simp [hin, hout]
      · simp [hmarked]

theorem update_congr_fun {g : α → α}
    (h : ∀ j a, j < bound → l[j]? = some a → marked a → f a = g a) :
    update marked f bound l = update marked g bound l := by
  apply List.ext_getElem?
  intro j
  rw [getElem?_update, getElem?_update]
  cases ha : l[j]? with
  | none => rfl
  | some a =>
      simp only [Option.map_some]
      split
      · rename_i hupdate
        rw [h j a hupdate.1 ha hupdate.2]
      · rfl

/-- The last marked entry first, then those before it. -/
theorem update_succ {k : Nat} {a : α} (ha : l[k]? = some a) (hmarked : marked a) :
    update marked f (k + 1) l = update marked f k (l.modify k f) := by
  apply List.ext_getElem?
  intro j
  rw [getElem?_update, getElem?_update, List.getElem?_modify]
  rcases Nat.lt_trichotomy j k with hlt | rfl | hgt
  · simp [hlt, Nat.lt_succ_of_lt hlt, Nat.ne_of_gt hlt]
  · simp [ha, hmarked]
  · simp [Nat.ne_of_lt hgt, Nat.not_lt.mpr (Nat.le_of_lt hgt), Nat.not_lt.mpr hgt]

/-- One update after another, entry by entry. -/
theorem update_update {g : α → α} (hf : ∀ a, marked (f a) ↔ marked a) :
    update marked g bound (update marked f bound l) = update marked (g ∘ f) bound l := by
  apply List.ext_getElem?
  intro j
  rw [getElem?_update, getElem?_update, getElem?_update, Option.map_map]
  congr 1
  funext a
  by_cases h : j < bound ∧ marked a
  · simp [h.1, h.2, hf]
  · simp only [Function.comp_apply, if_neg h]

end Update

end BackLinks
