/-
Numerals: the number a row of digits spells, and accumulators that spell it out digit by
digit, exactly or up to a ceiling.
-/
import Mathlib.Data.Nat.Digits.Defs

namespace Numerals

/-- What an accumulator that starts at `n` comes to over `digits`. -/
def valueFrom (base n : Nat) (digits : List Nat) : Nat :=
  digits.foldl (fun n d => n * base + d) n

/-- The number `digits` spell, the first weighing most. -/
def value (base : Nat) (digits : List Nat) : Nat := valueFrom base 0 digits

variable {base : Nat}

@[simp]
theorem valueFrom_nil (n : Nat) : valueFrom base n [] = n := rfl

@[simp]
theorem valueFrom_cons (n d : Nat) (ds : List Nat) :
    valueFrom base n (d :: ds) = valueFrom base (n * base + d) ds := rfl

theorem valueFrom_append (n : Nat) (ds es : List Nat) :
    valueFrom base n (ds ++ es) = valueFrom base (valueFrom base n ds) es :=
  List.foldl_append

/-- Zeros in front change nothing. -/
theorem value_replicate_zero (k : Nat) (ds : List Nat) :
    value base (List.replicate k 0 ++ ds) = value base ds := by
  induction k with
  | zero => rfl
  | succ k ih =>
      rw [List.replicate_succ, List.cons_append, value, valueFrom_cons, Nat.zero_mul]
      exact ih

/-- The digits of a number spell it. -/
theorem value_digits_reverse (base n : Nat) : value base (base.digits n).reverse = n := by
  have hfold : ∀ ds : List Nat, value base ds.reverse = Nat.ofDigits base ds := by
    intro ds
    induction ds with
    | nil => rfl
    | cons d ds ih =>
        rw [List.reverse_cons, value, valueFrom_append, Nat.ofDigits_cons]
        rw [value] at ih
        rw [ih, valueFrom_cons, valueFrom_nil, Nat.mul_comm, Nat.add_comm]
  rw [hfold, Nat.ofDigits_digits]

/-- An accumulator held under a ceiling. -/
def saturatingFrom (base top n : Nat) (digits : List Nat) : Nat :=
  digits.foldl (fun n d => min (min (n * base) top + d) top) n

/-- Held under a ceiling at every digit is held there at the end. -/
theorem saturatingFrom_eq {top : Nat} (hbase : 1 ≤ base) (n : Nat) (ds : List Nat) :
    saturatingFrom base top (min n top) ds = min (valueFrom base n ds) top := by
  induction ds generalizing n with
  | nil => rfl
  | cons d ds ih =>
      have hstep : min (min (min n top * base) top + d) top = min (n * base + d) top := by
        rcases Nat.le_total n top with hle | hle
        · rw [Nat.min_eq_left hle]
          omega
        · have hmul : top ≤ top * base := Nat.le_mul_of_pos_right top hbase
          have hmul' : top * base ≤ n * base := Nat.mul_le_mul_right base hle
          rw [Nat.min_eq_right hle]
          omega
      rw [saturatingFrom, List.foldl_cons, hstep]
      exact ih _

end Numerals
