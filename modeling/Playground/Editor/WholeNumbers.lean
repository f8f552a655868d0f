/-
Whole numbers as JavaScript computes with them: doubles, each operation rounded to the nearest.
Below `2 ^ 53` they are exact.
-/
import Playground.Frontend.Float

namespace Playground

namespace WholeNumbers

/-- The double JavaScript has for a sum, a difference or a product of whole numbers. -/
def rounded (value : Int) : Int :=
  let scale := Nat.log2 value.natAbs - 52
  value.sign * (F64.roundDiv value.natAbs (2 ^ scale) * 2 ^ scale : Nat)

/-- `Math.floor(a / b)` of doubles that hold whole numbers, `b` not 0. -/
def floorDiv (a b : Nat) : Nat :=
  let size := Nat.log2 (a / b)
  -- two doubles never have a quotient so near below 1 that it rounds up to 1
  if a < b then 0
  else if 52 ≤ size then F64.roundDiv a (b * 2 ^ (size - 52)) * 2 ^ (size - 52)
  else F64.roundDiv (a * 2 ^ (52 - size)) b / 2 ^ (52 - size)

theorem rounded_of_lt {value : Int} (h : value.natAbs < 2 ^ 53) : rounded value = value := by
  have hscale : Nat.log2 value.natAbs - 52 = 0 := by
    rcases Nat.eq_zero_or_pos value.natAbs with hzero | hpos
    · rw [hzero]
      decide
    · have hlt := (Nat.log2_lt hpos.ne').mpr h
      omega
  simp only [rounded, hscale, pow_zero, F64.roundDiv_one, Nat.mul_one]
  exact Int.sign_mul_natAbs value

/-- A quotient whose unit is fine enough keeps its floor: rounding up stops short of the next
whole number. -/
theorem roundDiv_scaled {a b scale : Nat} (hb : 0 < b) (hfine : b < 2 * scale) :
    F64.roundDiv (a * scale) b / scale = a / b := by
  have hscale : 0 < scale := by omega
  have hfloor : a * scale / b / scale = a / b := by
    rw [Nat.div_div_eq_div_mul, Nat.mul_div_mul_right a b hscale]
  simp only [F64.roundDiv]
  split
  · next hup =>
      have hbelow : a * scale / b < (a / b + 1) * scale := by
        rw [← Nat.div_lt_iff_lt_mul hscale, hfloor]
        exact Nat.lt_succ_self _
      have hgap : a * scale / b + 1 ≠ (a / b + 1) * scale := by
        intro hreach
        have hdiv := Nat.div_add_mod (a * scale) b
        have hnext : a * scale + scale ≤ b * ((a / b + 1) * scale) := by
          calc a * scale + scale = (a + 1) * scale := by ring
            _ ≤ b * (a / b + 1) * scale :=
                Nat.mul_le_mul_right _ (Nat.lt_mul_div_succ a hb)
            _ = b * ((a / b + 1) * scale) := Nat.mul_assoc _ _ _
        rw [← hreach, Nat.mul_add, Nat.mul_one] at hnext
        omega
      have hfit : a * scale / b + 1 < (a / b + 1) * scale := by omega
      refine le_antisymm (Nat.lt_succ_iff.mp ((Nat.div_lt_iff_lt_mul hscale).mpr hfit)) ?_
      rw [← hfloor]
      exact Nat.div_le_div_right (Nat.le_succ _)
  · exact hfloor

theorem floorDiv_of_lt {a b : Nat} (hb : 0 < b) (ha : a < 2 ^ 53) : floorDiv a b = a / b := by
  simp only [floorDiv]
  split
  · next hlt => rw [Nat.div_eq_of_lt hlt]
  · next hle =>
      have hpos : 0 < a / b := Nat.div_pos (not_lt.mp hle) hb
      have hsize := Nat.log2_self_le hpos.ne'
      have hmul : b * 2 ^ Nat.log2 (a / b) < 2 ^ 53 :=
        ((Nat.mul_le_mul_left b hsize).trans (Nat.mul_div_le a b)).trans_lt ha
      split
      · next hlarge =>
          -- only a divisor of 1 leaves a quotient of 53 bits
          have hone : b * 2 ^ (Nat.log2 (a / b) - 52) < 2 := by
            have hsplit : 2 ^ Nat.log2 (a / b) = 2 ^ (Nat.log2 (a / b) - 52) * 2 ^ 52 := by
              rw [← pow_add, Nat.sub_add_cancel hlarge]
            rw [hsplit, ← Nat.mul_assoc] at hmul
            omega
          have hunit : 0 < 2 ^ (Nat.log2 (a / b) - 52) := Nat.two_pow_pos _
          have hboth : b = 1 ∧ 2 ^ (Nat.log2 (a / b) - 52) = 1 :=
            mul_eq_one.mp (by have := Nat.mul_pos hb hunit; omega)
          rw [hboth.2, Nat.mul_one, Nat.mul_one, hboth.1, F64.roundDiv_one, Nat.div_one]
      · next hsmall =>
          refine roundDiv_scaled hb ?_
          have hsplit : 2 ^ 53 = 2 ^ Nat.log2 (a / b) * (2 * 2 ^ (52 - Nat.log2 (a / b))) := by
            rw [← pow_succ', ← pow_add]
            congr 1
            omega
          rw [hsplit, Nat.mul_comm b] at hmul
          exact Nat.lt_of_mul_lt_mul_left hmul

end WholeNumbers

end Playground
