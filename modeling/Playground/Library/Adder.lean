/-
An adder with a carry in, at any width.  The carry out and the overflow say that the sum is
not the exact unsigned or signed one; a subtraction is the sum with the inverted operand.
-/
import Mathlib

namespace Adder

variable {w : Nat}

def sum (x y : BitVec w) (carry : Bool) : BitVec w :=
  BitVec.ofNat w (x.toNat + y.toNat + carry.toNat)

/-- The unsigned sum does not fit. -/
def carryOut (x y : BitVec w) (carry : Bool) : Bool :=
  decide ((sum x y carry).toNat ≠ x.toNat + y.toNat + carry.toNat)

/-- The signed sum does not fit. -/
def overflows (x y : BitVec w) (carry : Bool) : Bool :=
  decide ((sum x y carry).toInt ≠ x.toInt + y.toInt + carry.toNat)

theorem sum_eq (x y : BitVec w) (carry : Bool) :
    sum x y carry = x + y + BitVec.ofNat w carry.toNat := by
  apply BitVec.eq_of_toNat_eq
  simp [sum, BitVec.toNat_add]

theorem carryOut_eq (x y : BitVec w) (carry : Bool) :
    carryOut x y carry = decide (2 ^ w ≤ x.toNat + y.toNat + carry.toNat) := by
  have hx := x.isLt
  have hy := y.isLt
  have hc := Bool.toNat_le carry
  simp only [carryOut, sum, BitVec.toNat_ofNat, decide_eq_decide]
  constructor
  · intro hne
    by_contra hlt
    exact hne (Nat.mod_eq_of_lt (by omega))
  · intro hle heq
    have hmod := Nat.mod_lt (x.toNat + y.toNat + carry.toNat) (Nat.two_pow_pos w)
    omega

/-- The sum differs from the exact signed one by at most one period. -/
theorem toInt_sum_cases (hw : 0 < w) (x y : BitVec w) (carry : Bool) :
    (sum x y carry).toInt = x.toInt + y.toInt + carry.toNat ∨
      (sum x y carry).toInt = x.toInt + y.toInt + carry.toNat + 2 * 2 ^ (w - 1) ∨
      (sum x y carry).toInt = x.toInt + y.toInt + carry.toNat - 2 * 2 ^ (w - 1) := by
  have hperiod : ((2 ^ w : Nat) : Int) = 2 * 2 ^ (w - 1) := by
    rw [← pow_succ', Nat.sub_add_cancel hw]
    norm_cast
  have hx := BitVec.toInt_lt (x := x)
  have hx' := BitVec.le_toInt x
  have hy := BitVec.toInt_lt (x := y)
  have hy' := BitVec.le_toInt y
  have hs := BitVec.toInt_lt (x := sum x y carry)
  have hs' := BitVec.le_toInt (sum x y carry)
  have hc := Bool.toNat_le carry
  have hdvd : ((2 ^ w : Nat) : Int) ∣
      (x.toInt + y.toInt + carry.toNat) - (sum x y carry).toInt := by
    have hmod : ((2 ^ w : Nat) : Int) ∣
        ((x.toNat + y.toNat + carry.toNat : Nat) : Int) - (sum x y carry).toInt := by
      rw [BitVec.toInt_eq_toNat_bmod, sum, BitVec.toNat_ofNat, Int.natCast_mod, Int.emod_bmod]
      exact Int.dvd_self_sub_bmod
    have hx := Int.dvd_self_sub_bmod (x := (x.toNat : Int)) (m := 2 ^ w)
    have hy := Int.dvd_self_sub_bmod (x := (y.toNat : Int)) (m := 2 ^ w)
    rw [← BitVec.toInt_eq_toNat_bmod] at hx hy
    have hall := dvd_sub hmod (dvd_add hx hy)
    have heq : (x.toInt + y.toInt + carry.toNat) - (sum x y carry).toInt =
        ((x.toNat + y.toNat + carry.toNat : Nat) : Int) - (sum x y carry).toInt -
          ((x.toNat - x.toInt) + (y.toNat - y.toInt)) := by
      push_cast
      ring
    rw [heq]
    exact hall
  obtain ⟨q, hq⟩ := hdvd
  rw [hperiod] at hq
  have hq₁ : q ≤ 1 := by
    by_contra hlt
    nlinarith
  have hq₂ : -1 ≤ q := by
    by_contra hlt
    nlinarith
  obtain rfl | rfl | rfl : q = -1 ∨ q = 0 ∨ q = 1 := by omega
  · right
    left
    linarith
  · left
    linarith
  · right
    right
    linarith

/-- A signed sum overflows when both operands have the sign it has not. -/
theorem overflows_eq (hw : 0 < w) (x y : BitVec w) (carry : Bool) :
    overflows x y carry = (x.msb == y.msb && x.msb != (sum x y carry).msb) := by
  have hx := BitVec.toInt_lt (x := x)
  have hx' := BitVec.le_toInt x
  have hy := BitVec.toInt_lt (x := y)
  have hy' := BitVec.le_toInt y
  have hs := BitVec.toInt_lt (x := sum x y carry)
  have hs' := BitVec.le_toInt (sum x y carry)
  have hc := Bool.toNat_le carry
  have hcases := toInt_sum_cases hw x y carry
  simp only [overflows, BitVec.msb_eq_toInt]
  rw [Bool.eq_iff_iff]
  simp only [decide_eq_true_eq, Bool.and_eq_true, beq_iff_eq, bne_iff_ne, ne_eq, decide_eq_decide]
  omega

section Subtraction

theorem sum_not_true (x y : BitVec w) : sum x (~~~y) true = x - y := by
  rw [sum_eq, BitVec.sub_eq_add_neg, BitVec.neg_eq_not_add, BitVec.add_assoc]
  rfl

/-- A subtraction carries when it does not borrow. -/
theorem carryOut_not_true (x y : BitVec w) :
    carryOut x (~~~y) true = decide (y ≤ x) := by
  have hx := x.isLt
  have hy := y.isLt
  rw [carryOut_eq, BitVec.toNat_not, decide_eq_decide, BitVec.le_def, Bool.toNat_true]
  omega

theorem toInt_not (hw : 0 < w) (x : BitVec w) : (~~~x).toInt = -x.toInt - 1 := by
  have hx := x.isLt
  have hperiod : 2 * 2 ^ (w - 1) = 2 ^ w := by rw [← pow_succ', Nat.sub_add_cancel hw]
  rw [BitVec.toInt_eq_toNat_cond, BitVec.toInt_eq_toNat_cond, BitVec.toNat_not]
  split
  · split <;> omega
  · split <;> omega

theorem overflows_not_true (hw : 0 < w) (x y : BitVec w) :
    overflows x (~~~y) true = (x.msb != y.msb && x.msb != (x - y).msb) := by
  rw [overflows_eq hw, sum_not_true, BitVec.msb_not]
  simp only [hw, decide_true, Bool.true_and]
  cases x.msb <;> cases y.msb <;> rfl

/-- The sign of a difference is right unless the subtraction overflows. -/
theorem msb_sub_ne_overflows (hw : 0 < w) (x y : BitVec w) :
    ((x - y).msb != overflows x (~~~y) true) = x.slt y := by
  have hx := BitVec.toInt_lt (x := x)
  have hx' := BitVec.le_toInt x
  have hy := BitVec.toInt_lt (x := y)
  have hy' := BitVec.le_toInt y
  have hs := BitVec.toInt_lt (x := x - y)
  have hs' := BitVec.le_toInt (x - y)
  have hcases := toInt_sum_cases hw x (~~~y) true
  simp only [sum_not_true, toInt_not hw, Bool.toNat_true] at hcases
  rw [overflows, sum_not_true, toInt_not hw, BitVec.msb_eq_toInt, BitVec.slt_eq_decide,
    Bool.eq_iff_iff]
  simp only [bne_iff_ne, ne_eq, decide_eq_decide, decide_eq_true_eq, Bool.toNat_true]
  omega

/-- Adding a negated operand is subtracting it, flags included. -/
theorem neg_eq_not_true {y : BitVec w} (hzero : y ≠ 0) (hmin : y ≠ BitVec.intMin w)
    (x : BitVec w) :
    sum x (-y) false = sum x (~~~y) true ∧
      carryOut x (-y) false = carryOut x (~~~y) true ∧
      overflows x (-y) false = overflows x (~~~y) true := by
  have hw : 0 < w := by
    apply Nat.pos_of_ne_zero
    rintro rfl
    exact hzero (BitVec.eq_nil y)
  have hpos : 0 < y.toNat := by
    apply Nat.pos_of_ne_zero
    intro h
    exact hzero (BitVec.eq_of_toNat_eq h)
  have hsum : sum x (-y) false = sum x (~~~y) true := by
    rw [sum_not_true, sum_eq, BitVec.sub_eq_add_neg]
    exact BitVec.add_zero _
  refine ⟨hsum, ?_, ?_⟩
  · have hy := y.isLt
    rw [carryOut_eq, carryOut_eq, BitVec.toNat_not, BitVec.toNat_neg, decide_eq_decide,
      Nat.mod_eq_of_lt (by omega), Bool.toNat_true, Bool.toNat_false]
    omega
  · rw [overflows, overflows, hsum, toInt_not hw, BitVec.toInt_neg_of_ne_intMin hmin,
      decide_eq_decide, Bool.toNat_true, Bool.toNat_false]
    omega

end Subtraction

end Adder
