/-
Machine words put together from bit fields, and taken apart again.  Fields that leave
each other room add up, so that reading one back is arithmetic.
-/
import Mathlib

namespace Fields

/-- Values or-ed together, each shifted left to its place. -/
def word (n : Nat) : List (Nat × Nat) → BitVec n
  | [] => 0
  | (value, place) :: fields => (BitVec.ofNat n value <<< place) ||| word n fields

/-- Bits `lo` to `hi` of a word. -/
def bits {n : Nat} (w : BitVec n) (hi lo : Nat) : Nat := w.toNat / 2 ^ lo % 2 ^ (hi + 1 - lo)

/-- What fields come to when none reaches into another. -/
def total : List (Nat × Nat) → Nat
  | [] => 0
  | (value, place) :: fields => value * 2 ^ place + total fields

/-- Fields from the top down, each inside the room the one above it leaves. -/
def Fits : Nat → List (Nat × Nat) → Prop
  | _, [] => True
  | top, (value, place) :: fields =>
      place ≤ top ∧ value < 2 ^ (top - place) ∧ Fits place fields

theorem total_lt {top : Nat} {fields : List (Nat × Nat)} (h : Fits top fields) :
    total fields < 2 ^ top := by
  induction fields generalizing top with
  | nil => exact Nat.two_pow_pos top
  | cons field fields ih =>
      obtain ⟨value, place⟩ := field
      obtain ⟨hplace, hvalue, hrest⟩ := h
      have hbelow := ih hrest
      have htop : 2 ^ top = 2 ^ (top - place) * 2 ^ place := by
        rw [← Nat.pow_add, Nat.sub_add_cancel hplace]
      calc value * 2 ^ place + total fields
          < value * 2 ^ place + 2 ^ place := Nat.add_lt_add_left hbelow _
        _ = (value + 1) * 2 ^ place := by rw [Nat.succ_mul]
        _ ≤ 2 ^ (top - place) * 2 ^ place := Nat.mul_le_mul_right _ hvalue
        _ = 2 ^ top := htop.symm

/-- A word of fields that leave each other room is their sum. -/
theorem toNat_word {n : Nat} {fields : List (Nat × Nat)} (h : Fits n fields) :
    (word n fields).toNat = total fields := by
  suffices ∀ top, top ≤ n → Fits top fields → (word n fields).toNat = total fields from
    this n (Nat.le_refl n) h
  clear h
  induction fields with
  | nil =>
      intro top _ _
      simp [word, total]
  | cons field fields ih =>
      intro top htop hfits
      obtain ⟨value, place⟩ := field
      have hlt := total_lt hfits
      obtain ⟨hplace, hvalue, hrest⟩ := hfits
      have hbelow := total_lt hrest
      have hn : (2 : Nat) ^ top ≤ 2 ^ n := Nat.pow_le_pow_right (by decide) htop
      have hshift : value <<< place = value * 2 ^ place := Nat.shiftLeft_eq value place
      have hsmall : value < 2 ^ n := by
        apply Nat.lt_of_lt_of_le hvalue
        exact Nat.pow_le_pow_right (by decide) (Nat.le_trans (Nat.sub_le top place) htop)
      have hroom : value * 2 ^ place < 2 ^ n :=
        Nat.lt_of_lt_of_le (Nat.lt_of_le_of_lt (Nat.le_add_right _ _) hlt) hn
      simp only [word, total, BitVec.toNat_or, BitVec.toNat_shiftLeft, BitVec.toNat_ofNat,
        ih place (Nat.le_trans hplace htop) hrest, Nat.mod_eq_of_lt hsmall]
      rw [hshift, Nat.mod_eq_of_lt hroom, ← hshift,
        ← Nat.shiftLeft_add_eq_or_of_lt hbelow value]

theorem bits_word {n : Nat} {fields : List (Nat × Nat)} (h : Fits n fields) (hi lo : Nat) :
    bits (word n fields) hi lo = total fields / 2 ^ lo % 2 ^ (hi + 1 - lo) := by
  rw [bits, toNat_word h]

/-- Testing high bits against a mask is a test on the bits read out. -/
theorem and_eq_iff_bits {n : Nat} (w : BitVec n) {place m c : Nat} (hplace : place < n)
    (hm : m < 2 ^ (n - place)) (hc : c < 2 ^ (n - place)) :
    w &&& BitVec.ofNat n (m * 2 ^ place) = BitVec.ofNat n (c * 2 ^ place) ↔
      bits w (n - 1) place &&& m = c := by
  have hroom : ∀ v, v < 2 ^ (n - place) → v * 2 ^ place < 2 ^ n := by
    intro v hv
    calc v * 2 ^ place < 2 ^ (n - place) * 2 ^ place :=
          Nat.mul_lt_mul_of_pos_right hv (Nat.two_pow_pos place)
      _ = 2 ^ n := by rw [← Nat.pow_add, Nat.sub_add_cancel hplace.le]
  have hbits : bits w (n - 1) place = w.toNat / 2 ^ place := by
    unfold bits
    apply Nat.mod_eq_of_lt
    apply Nat.div_lt_of_lt_mul
    rw [← Nat.pow_add]
    have hexp : place + (n - 1 + 1 - place) = n := by omega
    rw [hexp]
    exact w.isLt
  have hand : w.toNat &&& m * 2 ^ place = (w.toNat / 2 ^ place &&& m) * 2 ^ place := by
    apply Nat.eq_of_testBit_eq
    intro i
    simp only [Nat.testBit_and, Nat.testBit_mul_two_pow, Nat.testBit_div_two_pow]
    by_cases hi : place ≤ i
    · simp [hi]
    · simp [hi]
  rw [← BitVec.toNat_inj, BitVec.toNat_and, BitVec.toNat_ofNat, BitVec.toNat_ofNat,
    Nat.mod_eq_of_lt (hroom m hm), Nat.mod_eq_of_lt (hroom c hc), hand, hbits]
  exact Nat.mul_left_inj (Nat.pos_iff_ne_zero.mp (Nat.two_pow_pos place))

end Fields
