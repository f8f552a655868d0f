/-
Rounding to a format: the fields a fraction rounds to are those of the nearest pattern, ties to
even, and it falls off the format where that pattern does.
-/
import Playground.Editor.Ieee754

namespace Playground

namespace Ieee754

open FloatGrid

/-- The IEEE-754 magnitude at a place, the exponents going on past the format's own. -/
def magnitude (w : FloatWidth) (n : ℕ) : ℚ :=
  if n / 2 ^ w.fractionBits = 0 then
    (n % 2 ^ w.fractionBits : ℕ) * 2 ^ (1 - w.bias - w.fractionBits : ℤ)
  else
    (2 ^ w.fractionBits + n % 2 ^ w.fractionBits : ℕ) *
      2 ^ ((n / 2 ^ w.fractionBits : ℕ) - w.bias - w.fractionBits : ℤ)

/-- The smallest magnitude over zero. -/
def unit (w : FloatWidth) : ℚ := 2 ^ (1 - w.bias - w.fractionBits : ℤ)

variable (w : FloatWidth)

theorem fractionBits_pos : 0 < w.fractionBits := by cases w <;> decide

theorem topExponent_pos : 0 < w.topExponent := by cases w <;> decide

theorem unit_pos : 0 < unit w := zpow_pos two_pos _

theorem magnitude_eq (n : ℕ) : magnitude w n = mag w.fractionBits n * unit w := by
  rw [magnitude, mag, unit]
  by_cases h : n / 2 ^ w.fractionBits = 0
  · rw [if_pos h, if_pos h]
  · rw [if_neg h, if_neg h]
    obtain ⟨e, he⟩ := Nat.exists_eq_succ_of_ne_zero h
    have hexp : ((n / 2 ^ w.fractionBits : ℕ) - w.bias - w.fractionBits : ℤ) =
        (e : ℤ) + (1 - w.bias - w.fractionBits) := by
      rw [he]
      push_cast
      ring
    rw [hexp, zpow_add₀ two_ne_zero, zpow_natCast, he, Nat.succ_sub_one]
    push_cast
    ring

theorem magnitude_strictMono : StrictMono (magnitude w) := by
  intro a b hab
  rw [magnitude_eq, magnitude_eq]
  have hlt : (mag w.fractionBits a : ℚ) < mag w.fractionBits b := by
    exact_mod_cast mag_strictMono w.fractionBits hab
  exact mul_lt_mul_of_pos_right hlt (unit_pos w)

/-- The first place past the format, infinity's. -/
def infinityPlace : ℕ := w.topExponent * 2 ^ w.fractionBits

/-- What a nearest place comes to: its fields, unless it is zero's or past the format. -/
def outcome (x : ℚ) (n : ℕ) : Rounded :=
  if n = 0 then .underflow
  else if infinityPlace w ≤ n then .overflow
  else .fields (n / 2 ^ w.fractionBits) (n % 2 ^ w.fractionBits) (decide (x = magnitude w n))

section Estimate

variable {num den : ℕ}

theorem binaryLength_bounds (h : 0 < num) :
    2 ^ (binaryLength num - 1) ≤ num ∧ num < 2 ^ binaryLength num ∧ 1 ≤ binaryLength num := by
  have hsize : 0 < Nat.size num := Nat.size_pos.mpr h
  rw [binaryLength, if_neg h.ne']
  refine ⟨?_, Nat.lt_size_self num, hsize⟩
  by_contra hlt
  have := Nat.size_le.mpr (not_le.mp hlt)
  omega

/-- The comparison that corrects the estimate. -/
def shiftedLt (num den : ℕ) (g : ℤ) : Prop :=
  if 0 ≤ g then num < den <<< g.toNat else num <<< (-g).toNat < den

instance (g : ℤ) : Decidable (shiftedLt num den g) := by
  unfold shiftedLt
  infer_instance

theorem shiftedLt_iff (hden : 0 < den) (g : ℤ) :
    shiftedLt num den g ↔ (num : ℚ) / den < 2 ^ g := by
  have hden' : (0 : ℚ) < den := by exact_mod_cast hden
  rw [div_lt_iff₀ hden', shiftedLt]
  by_cases hg : 0 ≤ g
  · obtain ⟨k, rfl⟩ := Int.eq_ofNat_of_zero_le hg
    rw [if_pos hg, Int.toNat_natCast, Nat.shiftLeft_eq, zpow_natCast, mul_comm]
    exact_mod_cast Iff.rfl
  · obtain ⟨k, hk⟩ := Int.eq_ofNat_of_zero_le (show 0 ≤ -g by omega)
    obtain rfl : g = -(k : ℤ) := by omega
    rw [if_neg hg, neg_neg, Int.toNat_natCast, Nat.shiftLeft_eq, zpow_neg, zpow_natCast,
      inv_mul_eq_div, lt_div_iff₀ (by positivity)]
    exact_mod_cast Iff.rfl

/-- The estimate from the bit lengths, corrected. -/
def exponentOf (num den : ℕ) : ℤ :=
  let guess : ℤ := (binaryLength num : ℤ) - binaryLength den
  if shiftedLt num den guess then guess - 1 else guess

theorem exponentOf_bounds (hnum : 0 < num) (hden : 0 < den) :
    (2 : ℚ) ^ exponentOf num den ≤ num / den ∧
      (num : ℚ) / den < 2 ^ (exponentOf num den + 1) := by
  have hden' : (0 : ℚ) < den := by exact_mod_cast hden
  obtain ⟨hnlow, hnhigh, hnlen⟩ := binaryLength_bounds hnum
  obtain ⟨hdlow, hdhigh, hdlen⟩ := binaryLength_bounds hden
  have hpow (k : ℕ) : ((2 : ℕ) ^ k : ℕ) = ((2 : ℚ) ^ (k : ℤ)) := by
    rw [zpow_natCast]
    push_cast
    rfl
  have hlow : (2 : ℚ) ^ ((binaryLength num : ℤ) - binaryLength den - 1) ≤ num / den := by
    rw [le_div_iff₀ hden']
    have h₁ : (den : ℚ) ≤ 2 ^ (binaryLength den : ℤ) := by
      rw [← hpow]
      exact_mod_cast hdhigh.le
    have h₂ : (2 : ℚ) ^ ((binaryLength num - 1 : ℕ) : ℤ) ≤ num := by
      rw [← hpow]
      exact_mod_cast hnlow
    calc (2 : ℚ) ^ ((binaryLength num : ℤ) - binaryLength den - 1) * den
        ≤ 2 ^ ((binaryLength num : ℤ) - binaryLength den - 1) * 2 ^ (binaryLength den : ℤ) :=
          mul_le_mul_of_nonneg_left h₁ (zpow_nonneg two_pos.le _)
      _ = 2 ^ ((binaryLength num - 1 : ℕ) : ℤ) := by
          rw [← zpow_add₀ two_ne_zero]
          congr 1
          omega
      _ ≤ num := h₂
  have hhigh : (num : ℚ) / den < 2 ^ ((binaryLength num : ℤ) - binaryLength den + 1) := by
    rw [div_lt_iff₀ hden']
    have h₁ : (2 : ℚ) ^ ((binaryLength den - 1 : ℕ) : ℤ) ≤ den := by
      rw [← hpow]
      exact_mod_cast hdlow
    have h₂ : (num : ℚ) < 2 ^ (binaryLength num : ℤ) := by
      rw [← hpow]
      exact_mod_cast hnhigh
    calc (num : ℚ) < 2 ^ (binaryLength num : ℤ) := h₂
      _ = 2 ^ ((binaryLength num : ℤ) - binaryLength den + 1) *
            2 ^ ((binaryLength den - 1 : ℕ) : ℤ) := by
          rw [← zpow_add₀ two_ne_zero]
          congr 1
          omega
      _ ≤ _ := mul_le_mul_of_nonneg_left h₁ (zpow_nonneg two_pos.le _)
  simp only [exponentOf, shiftedLt_iff hden]
  by_cases hlt : (num : ℚ) / den < 2 ^ ((binaryLength num : ℤ) - binaryLength den)
  · rw [if_pos hlt, sub_add_cancel]
    exact ⟨hlow, hlt⟩
  · rw [if_neg hlt]
    exact ⟨not_lt.mp hlt, hhigh⟩

end Estimate

section Scale

variable {num den : ℕ}

/-- The fraction in units of the last fraction bit. -/
def scaledNum (num : ℕ) (q : ℤ) : ℕ := if q < 0 then num <<< (-q).toNat else num

def scaledDen (den : ℕ) (q : ℤ) : ℕ := if 0 < q then den <<< q.toNat else den

theorem scaledDen_pos (hden : 0 < den) (q : ℤ) : 0 < scaledDen den q := by
  rw [scaledDen]
  by_cases hq : 0 < q
  · rw [if_pos hq, Nat.shiftLeft_eq]
    positivity
  · rwa [if_neg hq]

theorem scaled_ratio (hden : 0 < den) (q : ℤ) :
    (scaledNum num q : ℚ) / scaledDen den q * 2 ^ q = num / den := by
  have hden' : (den : ℚ) ≠ 0 := by exact_mod_cast hden.ne'
  rcases lt_trichotomy q 0 with hq | rfl | hq
  · obtain ⟨k, hk⟩ := Int.eq_ofNat_of_zero_le (show 0 ≤ -q by omega)
    obtain rfl : q = -(k : ℤ) := by omega
    rw [scaledNum, if_pos hq, scaledDen, if_neg (by omega), neg_neg, Int.toNat_natCast,
      Nat.shiftLeft_eq, zpow_neg, zpow_natCast]
    push_cast
    field_simp
  · simp [scaledNum, scaledDen]
  · obtain ⟨k, rfl⟩ := Int.eq_ofNat_of_zero_le hq.le
    rw [scaledNum, if_neg (by omega), scaledDen, if_pos hq, Int.toNat_natCast,
      Nat.shiftLeft_eq, zpow_natCast]
    push_cast
    field_simp

end Scale

section Rounding

variable {num den : ℕ}

/-- How far the last fraction bit's weight is above its floor. -/
def scaleOf (num den : ℕ) : ℕ := (max (exponentOf num den) (1 - (w.bias : ℤ)) + w.bias - 1).toNat

/-- The weight of the last fraction bit. -/
def weightOf (num den : ℕ) : ℤ :=
  max (exponentOf num den) (1 - (w.bias : ℤ)) - w.fractionBits

theorem weightOf_eq : weightOf w num den =
    scaleOf w num den + (1 - (w.bias : ℤ) - w.fractionBits) := by
  rw [weightOf, scaleOf]
  omega

theorem two_zpow_weightOf : (2 : ℚ) ^ weightOf w num den = 2 ^ scaleOf w num den * unit w := by
  rw [weightOf_eq, zpow_add₀ two_ne_zero, zpow_natCast, unit]

def significand (num den : ℕ) : ℕ :=
  scaledNum num (weightOf w num den) / scaledDen den (weightOf w num den)

def remainder (num den : ℕ) : ℕ :=
  scaledNum num (weightOf w num den) % scaledDen den (weightOf w num den)

theorem ratio_bounds (hnum : 0 < num) (hden : 0 < den) :
    (scaledNum num (weightOf w num den) : ℚ) / scaledDen den (weightOf w num den) <
        2 ^ (w.fractionBits + 1) ∧
      (scaleOf w num den = 0 ∨ (2 : ℚ) ^ w.fractionBits ≤
        scaledNum num (weightOf w num den) / scaledDen den (weightOf w num den)) := by
  obtain ⟨hlow, hhigh⟩ := exponentOf_bounds hnum hden
  rw [← scaled_ratio hden (weightOf w num den)] at hlow hhigh
  have hweight : (0 : ℚ) < 2 ^ weightOf w num den := zpow_pos two_pos _
  constructor
  · refine lt_of_mul_lt_mul_right (hhigh.trans_le ?_) hweight.le
    rw [← zpow_natCast, ← zpow_add₀ two_ne_zero]
    apply zpow_le_zpow_right₀ one_le_two
    rw [weightOf]
    push_cast
    omega
  · by_cases hscale : scaleOf w num den = 0
    · exact Or.inl hscale
    · right
      refine le_of_mul_le_mul_right ?_ hweight
      rw [← zpow_natCast, ← zpow_add₀ two_ne_zero]
      refine le_trans (zpow_le_zpow_right₀ one_le_two ?_) hlow
      rw [scaleOf] at hscale
      rw [weightOf]
      omega

theorem significand_lt (hnum : 0 < num) (hden : 0 < den) :
    significand w num den < 2 ^ (w.fractionBits + 1) := by
  have hpos := scaledDen_pos hden (weightOf w num den)
  have h := (ratio_bounds w hnum hden).1
  rw [div_lt_iff₀ (by exact_mod_cast hpos)] at h
  rw [significand, Nat.div_lt_iff_lt_mul hpos]
  exact_mod_cast h

theorem scaled_significand (hnum : 0 < num) (hden : 0 < den) :
    Scaled w.fractionBits (scaleOf w num den) (significand w num den) := by
  have hpos := scaledDen_pos hden (weightOf w num den)
  refine ⟨(significand_lt w hnum hden).le, (ratio_bounds w hnum hden).2.imp id fun h => ?_⟩
  rw [le_div_iff₀ (by exact_mod_cast hpos)] at h
  rw [significand, Nat.le_div_iff_mul_le hpos]
  exact_mod_cast h

def roundedSignificand (num den : ℕ) : ℕ :=
  if roundUp (significand w num den) (remainder w num den)
    (scaledDen den (weightOf w num den)) then significand w num den + 1
  else significand w num den

theorem scaled_rounded (hnum : 0 < num) (hden : 0 < den) :
    Scaled w.fractionBits (scaleOf w num den) (roundedSignificand w num den) := by
  have hlt := significand_lt w hnum hden
  have hscaled := scaled_significand w hnum hden
  rw [roundedSignificand]
  by_cases hup : roundUp (significand w num den) (remainder w num den)
      (scaledDen den (weightOf w num den))
  · rw [if_pos hup]
    exact ⟨hlt, hscaled.normal.imp id fun h => h.trans (Nat.le_succ _)⟩
  · rw [if_neg hup]
    exact hscaled

def placeOf (num den : ℕ) : ℕ :=
  scaleOf w num den * 2 ^ w.fractionBits + roundedSignificand w num den

theorem nearest_placeOf (hnum : 0 < num) (hden : 0 < den) :
    Nearest (magnitude w) (num / den) (placeOf w num den) := by
  have h := nearest_scaled (unit_pos w) (fractionBits_pos w)
    (scaledDen_pos hden (weightOf w num den)) (significand_lt w hnum hden)
    (scaled_significand w hnum hden)
  rw [mul_assoc, ← two_zpow_weightOf, scaled_ratio hden] at h
  have hfun : (fun n => (mag w.fractionBits n : ℚ) * unit w) = magnitude w :=
    funext fun n => (magnitude_eq w n).symm
  rw [hfun] at h
  exact h

theorem magnitude_placeOf (hnum : 0 < num) (hden : 0 < den) :
    magnitude w (placeOf w num den) =
      roundedSignificand w num den * 2 ^ weightOf w num den := by
  rw [magnitude_eq, placeOf, mag_scaled (scaled_rounded w hnum hden), two_zpow_weightOf]
  push_cast
  ring

/-- Nothing is left of the division just when the fraction is the rounded one. -/
theorem exact_iff (hnum : 0 < num) (hden : 0 < den) :
    remainder w num den = 0 ↔ (num : ℚ) / den = magnitude w (placeOf w num den) := by
  have hpos := scaledDen_pos hden (weightOf w num den)
  have hpos' : (0 : ℚ) < scaledDen den (weightOf w num den) := by exact_mod_cast hpos
  rw [magnitude_placeOf w hnum hden, ← scaled_ratio hden (weightOf w num den),
    mul_left_inj' (zpow_ne_zero _ two_ne_zero), div_eq_iff hpos'.ne']
  have hsplit := Nat.div_add_mod (scaledNum num (weightOf w num den))
    (scaledDen den (weightOf w num den))
  have hlt := Nat.mod_lt (scaledNum num (weightOf w num den)) hpos
  rw [← remainder, ← significand] at hsplit
  rw [← remainder] at hlt
  constructor
  · intro hzero
    have hdown : roundedSignificand w num den = significand w num den := by
      rw [roundedSignificand, if_neg]
      rintro (h | ⟨h, -⟩)
      · omega
      · omega
    rw [hdown, ← hsplit, hzero]
    push_cast
    ring
  · intro heq
    have heq' : scaledNum num (weightOf w num den) =
        roundedSignificand w num den * scaledDen den (weightOf w num den) := by
      exact_mod_cast heq
    rw [remainder, heq', Nat.mul_mod_left]

/-- The fields of a rounded significand whose last bit has a weight. -/
def storedFields (q : ℤ) (m : ℕ) (exact : Bool) : Rounded :=
  let hidden := 1 <<< w.fractionBits
  if m = 0 then .underflow
  else if m < hidden then .fields 0 m exact
  else
    let exponent := q + w.fractionBits + w.bias
    let carried := m = hidden <<< 1
    let exponent := if carried then exponent + 1 else exponent
    let m := if carried then m >>> 1 else m
    if (w.topExponent : ℤ) ≤ exponent then .overflow
    else .fields exponent.toNat (m - hidden) exact

theorem roundToFloat_stored (num den : ℕ) :
    roundToFloat num den w = storedFields w (weightOf w num den) (roundedSignificand w num den)
      (decide (remainder w num den = 0)) := by
  rfl

theorem storedFields_of_normal {q : ℤ} {s f : ℕ} (exact : Bool) (hf : f < 2 ^ w.fractionBits)
    (hq : q = s + (1 - (w.bias : ℤ) - w.fractionBits)) :
    storedFields w q (2 ^ w.fractionBits + f) exact =
      if w.topExponent ≤ s + 1 then .overflow else .fields (s + 1) f exact := by
  have hpos : 0 < 2 ^ w.fractionBits := Nat.two_pow_pos _
  have hcarry : ¬ 2 ^ w.fractionBits + f = 2 ^ w.fractionBits <<< 1 := by
    rw [Nat.shiftLeft_eq, pow_one]
    omega
  have hexp : q + w.fractionBits + w.bias = ((s + 1 : ℕ) : ℤ) := by
    rw [hq]
    push_cast
    ring
  simp only [storedFields, Nat.one_shiftLeft]
  rw [if_neg (by omega), if_neg (by omega), if_neg hcarry, if_neg hcarry, hexp, Int.toNat_natCast,
    Nat.add_sub_cancel_left]
  simp only [Nat.cast_le]

theorem storedFields_of_carry {q : ℤ} {s : ℕ} (exact : Bool)
    (hq : q = s + (1 - (w.bias : ℤ) - w.fractionBits)) :
    storedFields w q (2 ^ (w.fractionBits + 1)) exact =
      if w.topExponent ≤ s + 2 then .overflow else .fields (s + 2) 0 exact := by
  have hpos : 0 < 2 ^ w.fractionBits := Nat.two_pow_pos _
  have hdouble : 2 ^ (w.fractionBits + 1) = 2 ^ w.fractionBits * 2 := pow_succ 2 w.fractionBits
  have hcarry : 2 ^ (w.fractionBits + 1) = 2 ^ w.fractionBits <<< 1 := by
    rw [Nat.shiftLeft_eq, hdouble, pow_one]
  have hexp : q + w.fractionBits + w.bias + 1 = ((s + 2 : ℕ) : ℤ) := by
    rw [hq]
    push_cast
    ring
  have hhalf : 2 ^ (w.fractionBits + 1) >>> 1 = 2 ^ w.fractionBits := by
    rw [Nat.shiftRight_eq_div_pow, hdouble, pow_one, Nat.mul_div_cancel _ two_pos]
  simp only [storedFields, Nat.one_shiftLeft]
  rw [if_neg (by omega), if_neg (by omega), if_pos hcarry, if_pos hcarry, hexp, hhalf,
    Int.toNat_natCast, Nat.sub_self]
  simp only [Nat.cast_le]

theorem storedFields_place {q : ℤ} {s m : ℕ} (exact : Bool) (h : Scaled w.fractionBits s m)
    (hq : q = s + (1 - (w.bias : ℤ) - w.fractionBits)) :
    storedFields w q m exact =
      if s * 2 ^ w.fractionBits + m = 0 then .underflow
      else if infinityPlace w ≤ s * 2 ^ w.fractionBits + m then .overflow
      else .fields ((s * 2 ^ w.fractionBits + m) / 2 ^ w.fractionBits)
        ((s * 2 ^ w.fractionBits + m) % 2 ^ w.fractionBits) exact := by
  have hpos : 0 < 2 ^ w.fractionBits := Nat.two_pow_pos _
  have hdouble : 2 ^ (w.fractionBits + 1) = 2 ^ w.fractionBits * 2 := pow_succ 2 w.fractionBits
  simp only [infinityPlace, ← Nat.le_div_iff_mul_le hpos]
  rcases Nat.lt_or_ge m (2 ^ w.fractionBits) with hlt | hge
  · obtain rfl : s = 0 := h.normal.resolve_right (Nat.not_le_of_lt hlt)
    rw [Nat.zero_mul, Nat.zero_add, Nat.div_eq_of_lt hlt, Nat.mod_eq_of_lt hlt,
      if_neg (Nat.not_le_of_lt (topExponent_pos w))]
    simp only [storedFields, Nat.one_shiftLeft]
    rw [if_pos hlt]
  · obtain ⟨f, rfl⟩ := Nat.exists_eq_add_of_le hge
    have hplace : s * 2 ^ w.fractionBits + (2 ^ w.fractionBits + f) =
        f + (s + 1) * 2 ^ w.fractionBits := by ring
    rw [hplace, if_neg (by positivity), Nat.add_mul_div_right _ _ hpos,
      Nat.add_mul_mod_self_right]
    rcases (show f ≤ 2 ^ w.fractionBits by have := h.le; omega).lt_or_eq with hf | rfl
    · rw [storedFields_of_normal w exact hf hq, Nat.div_eq_of_lt hf, Nat.mod_eq_of_lt hf,
        Nat.zero_add]
    · rw [← mul_two, ← hdouble, storedFields_of_carry w exact hq, Nat.div_self hpos, Nat.mod_self,
        show 1 + (s + 1) = s + 2 by omega]

/-- The code's rounding gives the nearest place. -/
theorem roundToFloat_eq (hnum : 0 < num) (hden : 0 < den) :
    roundToFloat num den w = outcome w (num / den) (placeOf w num den) := by
  have hexact : decide (remainder w num den = 0) =
      decide ((num : ℚ) / den = magnitude w (placeOf w num den)) :=
    decide_eq_decide.mpr (exact_iff w hnum hden)
  rw [roundToFloat_stored, storedFields_place w _ (scaled_rounded w hnum hden) (weightOf_eq w),
    hexact, outcome, ← placeOf]

end Rounding

end Ieee754

end Playground
