/-
Writing into a list at a position: the list grows to hold what is written, and what it had no
values for is filled.
-/
import Mathlib.Data.List.Basic

namespace Splice

variable {α : Type*}

/-- `old` long enough to hold `n` values. -/
def grow (fill : α) (old : List α) (n : Nat) : List α :=
  old ++ List.replicate (n - old.length) fill

/-- `values` written over `old` from position `start` on. -/
def splice (fill : α) (old : List α) (start : Nat) (values : List α) : List α :=
  let grown := grow fill old (start + values.length)
  grown.take start ++ (values ++ grown.drop (start + values.length))

variable (fill : α) (old : List α) (start : Nat) (values : List α)

theorem length_grow (n : Nat) : (grow fill old n).length = max old.length n := by
  rw [grow, List.length_append, List.length_replicate]
  omega

theorem getElem?_grow {i : Nat} (n : Nat) (hi : i < old.length) :
    (grow fill old n)[i]? = old[i]? :=
  List.getElem?_append_left hi

theorem length_take_grow :
    ((grow fill old (start + values.length)).take start).length = start := by
  rw [List.length_take, length_grow]
  omega

theorem length_splice :
    (splice fill old start values).length = max old.length (start + values.length) := by
  unfold splice
  rw [List.length_append, length_take_grow, List.length_append, List.length_drop, length_grow]
  omega

/-- What was written is there. -/
theorem take_drop_splice : ((splice fill old start values).drop start).take values.length =
    values := by
  unfold splice
  rw [List.drop_left' (length_take_grow fill old start values), List.take_left]

/-- What was not written over is as it was. -/
theorem getElem?_splice_of_lt {i : Nat} (hi : i < old.length)
    (hout : i < start ∨ start + values.length ≤ i) :
    (splice fill old start values)[i]? = old[i]? := by
  have hfront := length_take_grow fill old start values
  unfold splice
  rcases hout with hbefore | hafter
  · rw [List.getElem?_append_left (by omega), List.getElem?_take_of_lt hbefore,
      getElem?_grow fill old _ hi]
  · rw [List.getElem?_append_right (by omega), List.getElem?_append_right (by omega),
      List.getElem?_drop, hfront, ← getElem?_grow fill old (start + values.length) hi]
    congr 1
    omega

/-- The gap in front of what was written is filled. -/
theorem getElem?_splice_gap {i : Nat} (hi : old.length ≤ i) (hgap : i < start) :
    (splice fill old start values)[i]? = some fill := by
  have hfront := length_take_grow fill old start values
  unfold splice
  rw [List.getElem?_append_left (by omega), List.getElem?_take_of_lt hgap, grow,
    List.getElem?_append_right hi]
  exact List.getElem?_replicate_of_lt (by omega)

end Splice
