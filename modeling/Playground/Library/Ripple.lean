/-
Numbers of several digits of one width, least significant first, added from the low end with
the carry passed on.
-/
import Playground.Library.Adder

namespace Adder

variable {w : Nat}

/-- The number the digits spell. -/
def value (digits : List (BitVec w)) : Nat := Nat.ofDigits (2 ^ w) (digits.map BitVec.toNat)

/-- Each pair of digits is added with the carry out of the one before. -/
def ripple (carry : Bool) : List (BitVec w × BitVec w) → List (BitVec w) × Bool
  | [] => ([], carry)
  | (x, y) :: pairs =>
      let (sums, out) := ripple (carryOut x y carry) pairs
      (sum x y carry :: sums, out)

@[simp]
theorem value_nil : value ([] : List (BitVec w)) = 0 := rfl

@[simp]
theorem value_cons (x : BitVec w) (digits : List (BitVec w)) :
    value (x :: digits) = x.toNat + 2 ^ w * value digits := by
  simp [value, Nat.ofDigits_cons]

theorem value_lt (digits : List (BitVec w)) : value digits < 2 ^ (w * digits.length) := by
  induction digits with
  | nil => simp
  | cons x digits ih =>
      have hx := x.isLt
      have hpow : 2 ^ (w * (digits.length + 1)) = 2 ^ w * 2 ^ (w * digits.length) := by
        rw [Nat.mul_succ, pow_add, mul_comm]
      rw [value_cons, List.length_cons, hpow]
      have hle := Nat.mul_le_mul_left (2 ^ w) (Nat.succ_le_of_lt ih)
      rw [Nat.mul_succ] at hle
      omega

theorem toNat_sum_add_carryOut (x y : BitVec w) (carry : Bool) :
    (sum x y carry).toNat + 2 ^ w * (carryOut x y carry).toNat =
      x.toNat + y.toNat + carry.toNat := by
  have hx := x.isLt
  have hy := y.isLt
  have hc := Bool.toNat_le carry
  have hmod : (sum x y carry).toNat = (x.toNat + y.toNat + carry.toNat) % 2 ^ w :=
    BitVec.toNat_ofNat _ _
  rw [carryOut_eq, hmod]
  by_cases hle : 2 ^ w ≤ x.toNat + y.toNat + carry.toNat
  · rw [decide_eq_true hle, Bool.toNat_true, Nat.mod_eq_sub_mod hle, Nat.mod_eq_of_lt (by omega)]
    omega
  · rw [decide_eq_false hle, Bool.toNat_false, Nat.mod_eq_of_lt (by omega)]
    omega

/-- The digits and the last carry together are the exact sum. -/
theorem value_ripple (carry : Bool) (pairs : List (BitVec w × BitVec w)) :
    value (ripple carry pairs).1 + 2 ^ (w * pairs.length) * (ripple carry pairs).2.toNat =
      value (pairs.map Prod.fst) + value (pairs.map Prod.snd) + carry.toNat := by
  induction pairs generalizing carry with
  | nil => simp [ripple]
  | cons pair pairs ih =>
      obtain ⟨x, y⟩ := pair
      have hrest := ih (carryOut x y carry)
      have hdigit := toNat_sum_add_carryOut x y carry
      have hpow : 2 ^ (w * (pairs.length + 1)) = 2 ^ w * 2 ^ (w * pairs.length) := by
        rw [Nat.mul_succ, pow_add, mul_comm]
      simp only [ripple, List.map_cons, value_cons, List.length_cons, hpow]
      have hscaled := congrArg (2 ^ w * ·) hrest
      simp only [Nat.mul_add, ← Nat.mul_assoc] at hscaled
      omega

@[simp]
theorem length_ripple (carry : Bool) (pairs : List (BitVec w × BitVec w)) :
    (ripple carry pairs).1.length = pairs.length := by
  induction pairs generalizing carry with
  | nil => rfl
  | cons pair pairs ih => simp [ripple, ih]

/-- Split off the multiple of a bound that a small remainder leaves. -/
theorem eq_mod_of_split {n total low : Nat} {carry : Bool} (hlow : low < n)
    (h : low + n * carry.toNat = total) : low = total % n ∧ carry = decide (n ≤ total) := by
  cases carry with
  | true =>
      rw [Bool.toNat_true, Nat.mul_one] at h
      refine ⟨?_, (decide_eq_true (by omega)).symm⟩
      rw [← h, Nat.add_mod_right, Nat.mod_eq_of_lt hlow]
  | false =>
      rw [Bool.toNat_false, Nat.mul_zero, Nat.add_zero] at h
      refine ⟨?_, (decide_eq_false (by omega)).symm⟩
      rw [← h, Nat.mod_eq_of_lt hlow]

/-- Without a carry in, the digits are the sum and the carry out says that it does not fit. -/
theorem ripple_false (pairs : List (BitVec w × BitVec w)) :
    value (ripple false pairs).1 =
        (value (pairs.map Prod.fst) + value (pairs.map Prod.snd)) % 2 ^ (w * pairs.length) ∧
      (ripple false pairs).2 = decide (2 ^ (w * pairs.length) ≤
        value (pairs.map Prod.fst) + value (pairs.map Prod.snd)) := by
  have hlt := value_lt (ripple false pairs).1
  rw [length_ripple] at hlt
  exact eq_mod_of_split hlt (value_ripple false pairs)

theorem value_not (digits : List (BitVec w)) :
    value (digits.map (~~~·)) + value digits + 1 = 2 ^ (w * digits.length) := by
  induction digits with
  | nil => simp
  | cons x digits ih =>
      have hx := x.isLt
      have hpow : 2 ^ (w * (digits.length + 1)) = 2 ^ w * 2 ^ (w * digits.length) := by
        rw [Nat.mul_succ, pow_add, mul_comm]
      have hscaled := congrArg (2 ^ w * ·) ih
      simp only [Nat.mul_add, Nat.mul_one] at hscaled
      simp only [List.map_cons, value_cons, List.length_cons, hpow, BitVec.toNat_not]
      omega

/-- With the second number inverted and a carry in, the digits are the difference and the
carry out says that there is no borrow. -/
theorem ripple_true (pairs : List (BitVec w × BitVec w)) :
    value (ripple true (pairs.map fun p => (p.1, ~~~p.2))).1 =
        (value (pairs.map Prod.fst) + (2 ^ (w * pairs.length) - value (pairs.map Prod.snd))) %
          2 ^ (w * pairs.length) ∧
      (ripple true (pairs.map fun p => (p.1, ~~~p.2))).2 =
        decide (value (pairs.map Prod.snd) ≤ value (pairs.map Prod.fst)) := by
  have hsum := value_ripple true (pairs.map fun p => (p.1, ~~~p.2))
  have hlt := value_lt (ripple true (pairs.map fun p => (p.1, ~~~p.2))).1
  have hnot := value_not (pairs.map Prod.snd)
  have hbound := value_lt (pairs.map Prod.snd)
  rw [length_ripple, List.length_map] at hlt
  rw [List.length_map] at hsum hnot hbound
  have hfst : (pairs.map fun p => (p.1, ~~~p.2)).map Prod.fst = pairs.map Prod.fst := by
    rw [List.map_map]
    rfl
  have hsnd : (pairs.map fun p => (p.1, ~~~p.2)).map Prod.snd =
      (pairs.map Prod.snd).map (~~~·) := by
    rw [List.map_map, List.map_map]
    rfl
  rw [hfst, hsnd, Bool.toNat_true] at hsum
  have htotal : value (pairs.map Prod.fst) + value ((pairs.map Prod.snd).map (~~~·)) + 1 =
      value (pairs.map Prod.fst) + (2 ^ (w * pairs.length) - value (pairs.map Prod.snd)) := by
    omega
  rw [htotal] at hsum
  obtain ⟨hlow, hcarry⟩ := eq_mod_of_split hlt hsum
  refine ⟨hlow, hcarry.trans ?_⟩
  rw [decide_eq_decide]
  omega

end Adder
