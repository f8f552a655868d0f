/-
Rounding to the nearest: the place of an increasing sequence whose value is nearest to a
rational, an even place winning a tie, and the sequence of the magnitudes of a binary
floating-point format.
-/
import Mathlib

namespace Playground

namespace FloatGrid

section Nearest

variable {f : ℕ → ℚ} {v y z : ℚ} {n m : ℕ}

/-- No value is nearer than the one at a place, and the place is even if another is as near. -/
def Nearest (f : ℕ → ℚ) (v : ℚ) (n : ℕ) : Prop :=
  ∀ k, |v - f n| ≤ |v - f k| ∧ (|v - f k| = |v - f n| → k ≠ n → Even n)

theorem abs_sub_le_iff_of_lt {a b : ℚ} (h : a < b) : |v - a| ≤ |v - b| ↔ 2 * v ≤ a + b := by
  rw [← sq_le_sq]
  constructor
  · intro hsq
    nlinarith
  · intro hsum
    nlinarith

theorem abs_sub_ge_iff_of_lt {a b : ℚ} (h : a < b) : |v - b| ≤ |v - a| ↔ a + b ≤ 2 * v := by
  rw [← sq_le_sq]
  constructor
  · intro hsq
    nlinarith
  · intro hsum
    nlinarith

theorem abs_sub_eq_iff_of_lt {a b : ℚ} (h : a < b) : |v - a| = |v - b| ↔ 2 * v = a + b := by
  rw [le_antisymm_iff, abs_sub_le_iff_of_lt h, abs_sub_ge_iff_of_lt h, ← le_antisymm_iff]

/-- Below the middle of a place and the next, or in the middle when the place is even. -/
def Upper (f : ℕ → ℚ) (v : ℚ) (n : ℕ) : Prop :=
  2 * v < f n + f (n + 1) ∨ 2 * v = f n + f (n + 1) ∧ Even n

/-- Above the middle of a place and the one before, or in the middle when the place is even. -/
def Lower (f : ℕ → ℚ) (v : ℚ) (n : ℕ) : Prop :=
  ∀ k, k + 1 = n → f k + f n < 2 * v ∨ f k + f n = 2 * v ∧ Even n

/-- The neighbours decide which place is nearest. -/
theorem nearest_iff (hf : StrictMono f) : Nearest f v n ↔ Lower f v n ∧ Upper f v n := by
  constructor
  · intro h
    constructor
    · rintro k rfl
      have hlt := hf (Nat.lt_succ_self k)
      obtain ⟨hle, htie⟩ := h k
      rcases ((abs_sub_ge_iff_of_lt hlt).mp hle).lt_or_eq with hsum | hsum
      · exact Or.inl hsum
      · have heq := (abs_sub_eq_iff_of_lt hlt).mpr hsum.symm
        exact Or.inr ⟨hsum, htie heq (Nat.ne_of_lt k.lt_succ_self)⟩
    · have hlt := hf (Nat.lt_succ_self n)
      obtain ⟨hle, htie⟩ := h (n + 1)
      rcases ((abs_sub_le_iff_of_lt hlt).mp hle).lt_or_eq with hsum | hsum
      · exact Or.inl hsum
      · exact Or.inr ⟨hsum, htie ((abs_sub_eq_iff_of_lt hlt).mpr hsum).symm (Nat.succ_ne_self n)⟩
  · rintro ⟨hlower, hupper⟩ k
    rcases lt_trichotomy k n with hk | rfl | hk
    · obtain ⟨j, rfl⟩ := Nat.exists_eq_add_of_lt hk
      have hmono : f k ≤ f (k + j) := hf.monotone (Nat.le_add_right k j)
      have hlow := hlower (k + j) rfl
      have hlt := hf hk
      constructor
      · rw [abs_sub_ge_iff_of_lt hlt]
        rcases hlow with hlow | ⟨hlow, -⟩
        · linarith
        · linarith
      · intro heq _
        have hsum := (abs_sub_eq_iff_of_lt hlt).mp heq
        rcases hlow with hlow | ⟨-, heven⟩
        · linarith
        · exact heven
    · exact ⟨le_rfl, fun _ hne => absurd rfl hne⟩
    · have hmono : f (n + 1) ≤ f k := hf.monotone hk
      have hlt := hf hk
      constructor
      · rw [abs_sub_le_iff_of_lt hlt]
        rcases hupper with hup | ⟨hup, -⟩
        · linarith
        · linarith
      · intro heq _
        have hsum := (abs_sub_eq_iff_of_lt hlt).mp heq.symm
        rcases hupper with hup | ⟨-, heven⟩
        · linarith
        · exact heven

theorem nearest_self (hf : StrictMono f) (n : ℕ) : Nearest f (f n) n := by
  rw [nearest_iff hf]
  constructor
  · rintro k rfl
    have hlt := hf (Nat.lt_succ_self k)
    left
    linarith
  · have hlt := hf (Nat.lt_succ_self n)
    left
    linarith

/-- What lies between a value and something that rounds to it rounds to it too. -/
theorem Nearest.between (hf : StrictMono f) (h : Nearest f y n)
    (hz : y ≤ z ∧ z ≤ f n ∨ f n ≤ z ∧ z ≤ y) : Nearest f z n := by
  obtain ⟨hlower, hupper⟩ := (nearest_iff hf).mp h
  obtain ⟨hlower', hupper'⟩ := (nearest_iff hf).mp (nearest_self hf n)
  rw [nearest_iff hf]
  rcases hz with ⟨hyz, hzn⟩ | ⟨hnz, hzy⟩
  · constructor
    · rintro k hk
      rcases hlower k hk with hlow | ⟨hlow, heven⟩
      · left
        linarith
      · rcases hyz.lt_or_eq with hlt | rfl
        · left
          linarith
        · exact Or.inr ⟨hlow, heven⟩
    · left
      have hlt := hf (Nat.lt_succ_self n)
      linarith
  · constructor
    · rintro k rfl
      left
      have hlt := hf (Nat.lt_succ_self k)
      linarith
    · rcases hupper with hup | ⟨hup, heven⟩
      · left
        linarith
      · rcases hzy.lt_or_eq with hlt | rfl
        · left
          linarith
        · exact Or.inr ⟨hup, heven⟩

theorem Nearest.le_of_nearest (hf : StrictMono f) (hn : Nearest f v n) (hm : Nearest f v m) :
    n ≤ m := by
  by_contra hlt
  obtain ⟨j, rfl⟩ := Nat.exists_eq_add_of_lt (not_le.mp hlt)
  obtain ⟨hlower, -⟩ := (nearest_iff hf).mp hn
  obtain ⟨-, hupper⟩ := (nearest_iff hf).mp hm
  have hfirst : f m ≤ f (m + j) := hf.monotone (Nat.le_add_right m j)
  have hsecond : f (m + 1) ≤ f (m + j + 1) := hf.monotone (by omega)
  rcases hlower (m + j) rfl with hlow | ⟨hlow, heven⟩
  · rcases hupper with hup | ⟨hup, -⟩
    · linarith
    · linarith
  · rcases hupper with hup | ⟨hup, heven'⟩
    · linarith
    · have heq : f (m + j) = f m := by linarith
      have hj : j = 0 := by
        have := hf.injective heq
        omega
      subst hj
      exact absurd heven (Nat.not_even_iff_odd.mpr heven'.add_one)

/-- At most one place is nearest. -/
theorem Nearest.unique (hf : StrictMono f) (hn : Nearest f v n) (hm : Nearest f v m) : n = m :=
  le_antisymm (hn.le_of_nearest hf hm) (hm.le_of_nearest hf hn)

theorem Nearest.le_of_le (hf : StrictMono f) (h : Nearest f v n) (hle : f m ≤ v) : m ≤ n := by
  by_contra hlt
  have hfn : f n < f m := hf (not_le.mp hlt)
  have hnear := (h m).1
  rw [abs_of_nonneg (by linarith), abs_of_nonneg (by linarith)] at hnear
  linarith

theorem Nearest.lt_of_two_mul_lt (hf : StrictMono f) (h : Nearest f v n) (hm : f m ≤ v)
    (hlt : 2 * v < f m + f (m + 1)) : n ≤ m := by
  by_contra hle
  have hfn : f (m + 1) ≤ f n := hf.monotone (not_le.mp hle)
  have hfm : f m < f (m + 1) := hf (Nat.lt_succ_self m)
  have hnear := (h m).1
  rw [abs_of_nonneg (sub_nonneg.mpr hm), abs_of_nonpos (by linarith)] at hnear
  linarith

/-- Between a place and the next, the middle decides, and in the middle the even one. -/
theorem nearest_of_bounds (hf : StrictMono f) (hlow : f n ≤ v) (hhigh : v < f (n + 1)) :
    Nearest f v (if f n + f (n + 1) < 2 * v ∨ f n + f (n + 1) = 2 * v ∧ ¬ Even n then n + 1
      else n) := by
  rw [nearest_iff hf]
  by_cases hup : f n + f (n + 1) < 2 * v ∨ f n + f (n + 1) = 2 * v ∧ ¬ Even n
  · rw [if_pos hup]
    constructor
    · rintro k hk
      obtain rfl : k = n := by omega
      exact hup.imp id fun h => ⟨h.1, (Nat.even_add_one).mpr h.2⟩
    · left
      have hlt := hf (Nat.lt_succ_self (n + 1))
      linarith
  · rw [if_neg hup]
    push Not at hup
    constructor
    · rintro k rfl
      left
      have hlt := hf (Nat.lt_succ_self k)
      linarith
    · rcases hup.1.lt_or_eq with hlt | heq
      · exact Or.inl hlt
      · exact Or.inr ⟨heq, hup.2 heq.symm⟩

end Nearest

section Magnitudes

variable {p s m n : ℕ}

/-- The magnitude at a place in units of the smallest: `p` bits of fraction, and above them the
exponent, which takes a hidden bit once it is not zero. -/
def mag (p n : ℕ) : ℕ :=
  if n / 2 ^ p = 0 then n % 2 ^ p else (2 ^ p + n % 2 ^ p) * 2 ^ (n / 2 ^ p - 1)

/-- A significand at a scale: subnormal at the lowest scale alone, up to the next power of two. -/
structure Scaled (p s m : ℕ) : Prop where
  le : m ≤ 2 ^ (p + 1)
  normal : s = 0 ∨ 2 ^ p ≤ m

theorem mag_scaled (h : Scaled p s m) : mag p (s * 2 ^ p + m) = m * 2 ^ s := by
  have hpos : 0 < 2 ^ p := Nat.two_pow_pos p
  have hdouble : 2 ^ (p + 1) = 2 ^ p + 2 ^ p := by rw [pow_succ]; ring
  rcases Nat.lt_or_ge m (2 ^ p) with hlt | hge
  · obtain rfl : s = 0 := h.normal.resolve_right (Nat.not_le_of_lt hlt)
    rw [mag, Nat.zero_mul, Nat.zero_add, Nat.div_eq_of_lt hlt, if_pos rfl, Nat.mod_eq_of_lt hlt,
      pow_zero, Nat.mul_one]
  · obtain ⟨f, rfl⟩ := Nat.exists_eq_add_of_le hge
    rcases (show f ≤ 2 ^ p by have := h.le; omega).lt_or_eq with hf | rfl
    · have hplace : s * 2 ^ p + (2 ^ p + f) = f + (s + 1) * 2 ^ p := by ring
      have hdiv : (f + (s + 1) * 2 ^ p) / 2 ^ p = s + 1 := by
        rw [Nat.add_mul_div_right _ _ hpos, Nat.div_eq_of_lt hf, Nat.zero_add]
      have hmod : (f + (s + 1) * 2 ^ p) % 2 ^ p = f := by
        rw [Nat.add_mul_mod_self_right, Nat.mod_eq_of_lt hf]
      rw [mag, hplace, hdiv, hmod, if_neg (Nat.succ_ne_zero s), Nat.add_sub_cancel]
    · have hplace : s * 2 ^ p + (2 ^ p + 2 ^ p) = 0 + (s + 2) * 2 ^ p := by ring
      have hdiv : (0 + (s + 2) * 2 ^ p) / 2 ^ p = s + 2 := by
        rw [Nat.zero_add, Nat.mul_div_cancel _ hpos]
      have hmod : (0 + (s + 2) * 2 ^ p) % 2 ^ p = 0 := by
        rw [Nat.zero_add, Nat.mul_mod_left]
      rw [mag, hplace, hdiv, hmod, if_neg (by omega), show s + 2 - 1 = s + 1 by omega, pow_succ]
      ring

/-- Every place is a significand at a scale, with room for the next significand. -/
theorem exists_scaled (p n : ℕ) : ∃ s m, n = s * 2 ^ p + m ∧ m < 2 ^ (p + 1) ∧ Scaled p s m := by
  have hpos : 0 < 2 ^ p := Nat.two_pow_pos p
  have hdouble : 2 ^ (p + 1) = 2 ^ p + 2 ^ p := by rw [pow_succ]; ring
  have hmod : n % 2 ^ p < 2 ^ p := Nat.mod_lt n hpos
  have hsplit : n = n / 2 ^ p * 2 ^ p + n % 2 ^ p := by rw [Nat.mul_comm, Nat.div_add_mod]
  rcases hexp : n / 2 ^ p with _ | e
  · refine ⟨0, n % 2 ^ p, ?_, by omega, by omega, Or.inl rfl⟩
    rw [hexp] at hsplit
    exact hsplit
  · refine ⟨e, 2 ^ p + n % 2 ^ p, ?_, by omega, by omega, Or.inr (Nat.le_add_right _ _)⟩
    rw [hexp] at hsplit
    calc n = (e + 1) * 2 ^ p + n % 2 ^ p := hsplit
      _ = e * 2 ^ p + (2 ^ p + n % 2 ^ p) := by ring

theorem mag_succ (h : Scaled p s m) (hlt : m < 2 ^ (p + 1)) :
    mag p (s * 2 ^ p + m + 1) = (m + 1) * 2 ^ s :=
  mag_scaled ⟨hlt, h.normal.imp id fun hm => hm.trans (Nat.le_succ m)⟩

theorem mag_strictMono (p : ℕ) : StrictMono (mag p) := by
  apply strictMono_nat_of_lt_succ
  intro n
  obtain ⟨s, m, rfl, hlt, hscaled⟩ := exists_scaled p n
  rw [mag_scaled hscaled, mag_succ hscaled hlt]
  exact Nat.mul_lt_mul_of_pos_right (Nat.lt_succ_self m) (Nat.two_pow_pos s)

/-- The gap below a place is at least half the gap above. -/
theorem mag_pred {k : ℕ} (h : Scaled p s m) (hk : k + 1 = s * 2 ^ p + m) :
    2 * mag p k + 2 ^ s ≤ 2 * (m * 2 ^ s) := by
  have hpos : 0 < 2 ^ p := Nat.two_pow_pos p
  have hdouble : 2 ^ (p + 1) = 2 ^ p + 2 ^ p := by rw [pow_succ]; ring
  obtain ⟨s', m', rfl, hlt, hscaled⟩ := exists_scaled p k
  have hnext : m * 2 ^ s = (m' + 1) * 2 ^ s' := by
    rw [← mag_scaled h, ← hk, mag_succ hscaled hlt]
  have hscale : s ≤ s' + 1 := by
    rcases h.normal with rfl | hm
    · exact Nat.zero_le _
    · by_contra hgt
      have hmul : (s' + 2) * 2 ^ p ≤ s * 2 ^ p := Nat.mul_le_mul_right _ (by omega)
      have hsplit : (s' + 2) * 2 ^ p = s' * 2 ^ p + 2 ^ (p + 1) := by rw [hdouble]; ring
      omega
  have hgap : 2 ^ s ≤ 2 * 2 ^ s' := by
    rw [← pow_succ']
    exact Nat.pow_le_pow_right two_pos hscale
  rw [mag_scaled hscaled, hnext, Nat.add_mul, Nat.one_mul]
  omega

/-- What is within a quarter of the gap above rounds to the place. -/
theorem nearest_of_close {unit : ℚ} (hunit : 0 < unit) (h : Scaled p s m) (hlt : m < 2 ^ (p + 1))
    {v : ℚ} (hclose : 4 * |v - m * 2 ^ s * unit| < 2 ^ s * unit) :
    Nearest (fun n => mag p n * unit) v (s * 2 ^ p + m) := by
  have hf : StrictMono fun n => (mag p n : ℚ) * unit := by
    intro a b hab
    have hmag : (mag p a : ℚ) < mag p b := by exact_mod_cast mag_strictMono p hab
    exact mul_lt_mul_of_pos_right hmag hunit
  have hself : (mag p (s * 2 ^ p + m) : ℚ) * unit = m * 2 ^ s * unit := by
    rw [mag_scaled h]
    push_cast
    ring
  have habove : (mag p (s * 2 ^ p + m + 1) : ℚ) * unit = m * 2 ^ s * unit + 2 ^ s * unit := by
    rw [mag_succ h hlt]
    push_cast
    ring
  obtain ⟨hlow, hhigh⟩ := abs_lt.mp (show |v - m * 2 ^ s * unit| < 2 ^ s * unit / 4 by linarith)
  rw [nearest_iff hf]
  constructor
  · intro k hk
    left
    have hpred : (2 * mag p k + 2 ^ s : ℚ) ≤ 2 * (m * 2 ^ s) := by exact_mod_cast mag_pred h hk
    have hbelow := mul_le_mul_of_nonneg_right hpred hunit.le
    simp only [hself]
    linarith
  · left
    simp only [hself, habove]
    linarith

/-- A quotient rounded to the nearest whole number, an even one in a tie, from what division
leaves. -/
def roundUp (q r d : ℕ) : Prop := d < 2 * r ∨ 2 * r = d ∧ q % 2 = 1

instance (q r d : ℕ) : Decidable (roundUp q r d) := inferInstanceAs (Decidable (_ ∨ _))

/-- How far the middle between a whole number and the next is below a quotient. -/
theorem two_mul_sub_middle {q r den : ℕ} (hden : 0 < den) (scale : ℚ) :
    2 * (((q : ℚ) + r / den) * scale) - (q * scale + (q + 1) * scale) =
      ((2 * r : ℕ) - (den : ℕ) : ℚ) * (scale / den) := by
  have hne : (den : ℚ) ≠ 0 := by exact_mod_cast hden.ne'
  push_cast
  field_simp
  ring

/-- Rounding a quotient at a scale gives the nearest place. -/
theorem nearest_scaled {unit : ℚ} (hunit : 0 < unit) (hp : 0 < p) {num den : ℕ} (hden : 0 < den)
    (hq : num / den < 2 ^ (p + 1)) (hscaled : Scaled p s (num / den)) :
    Nearest (fun n => mag p n * unit) (num / den * 2 ^ s * unit)
      (s * 2 ^ p + (if roundUp (num / den) (num % den) den then num / den + 1
        else num / den)) := by
  have hf : StrictMono fun n => (mag p n : ℚ) * unit := by
    intro a b hab
    have hlt : (mag p a : ℚ) < mag p b := by exact_mod_cast mag_strictMono p hab
    exact mul_lt_mul_of_pos_right hlt hunit
  have hden' : (0 : ℚ) < den := by exact_mod_cast hden
  have hscale : (0 : ℚ) < 2 ^ s * unit := mul_pos (by positivity) hunit
  obtain ⟨q, hq'⟩ : ∃ q, num / den = q := ⟨_, rfl⟩
  obtain ⟨r, hr'⟩ : ∃ r, num % den = r := ⟨_, rfl⟩
  have hrlt : (r : ℚ) < den := by exact_mod_cast hr' ▸ Nat.mod_lt num hden
  have hratio : (num : ℚ) / den = q + r / den := by
    have hnum : num = den * q + r := by rw [← hq', ← hr', Nat.div_add_mod]
    rw [hnum]
    push_cast
    field_simp
  rw [hq'] at hq hscaled
  have hlow : (mag p (s * 2 ^ p + q) : ℚ) * unit = q * (2 ^ s * unit) := by
    rw [mag_scaled hscaled]
    push_cast
    ring
  have hhigh : (mag p (s * 2 ^ p + q + 1) : ℚ) * unit = (q + 1) * (2 ^ s * unit) := by
    rw [mag_succ hscaled hq]
    push_cast
    ring
  have hv : (num : ℚ) / den * 2 ^ s * unit = (q + r / den) * (2 ^ s * unit) := by
    rw [hratio]
    ring
  have hfraction : 0 ≤ (r : ℚ) / den ∧ (r : ℚ) / den < 1 :=
    ⟨by positivity, (div_lt_one hden').mpr hrlt⟩
  have hnearest := nearest_of_bounds (n := s * 2 ^ p + q) hf (v := num / den * 2 ^ s * unit)
    (by
      simp only [hlow, hv]
      exact mul_le_mul_of_nonneg_right (by linarith) hscale.le)
    (by
      simp only [hhigh, hv]
      exact mul_lt_mul_of_pos_right (by linarith) hscale)
  simp only [hlow, hhigh, hv] at hnearest
  have hmiddle := two_mul_sub_middle (q := q) (r := r) hden (2 ^ s * unit)
  have hpos : 0 < 2 ^ s * unit / (den : ℚ) := div_pos hscale hden'
  have hsum : (q : ℚ) * (2 ^ s * unit) + (q + 1) * (2 ^ s * unit) <
      2 * ((q + r / den) * (2 ^ s * unit)) ↔ den < 2 * r := by
    rw [← sub_pos, hmiddle, mul_pos_iff_of_pos_right hpos, sub_pos, Nat.cast_lt]
  have htie : (q : ℚ) * (2 ^ s * unit) + (q + 1) * (2 ^ s * unit) =
      2 * ((q + r / den) * (2 ^ s * unit)) ↔ 2 * r = den := by
    rw [eq_comm, ← sub_eq_zero, hmiddle, mul_eq_zero_iff_right hpos.ne', sub_eq_zero, Nat.cast_inj]
  have heven : ¬ Even (s * 2 ^ p + q) ↔ q % 2 = 1 := by
    have hpow : Even (s * 2 ^ p) := ((Nat.even_pow.mpr ⟨even_two, hp.ne'⟩).mul_left s)
    rw [Nat.even_add, iff_true_left hpow, Nat.not_even_iff]
  rw [hq', hr', hv]
  simp only [hsum, htie, heven] at hnearest
  by_cases hup : den < 2 * r ∨ 2 * r = den ∧ q % 2 = 1
  · rw [if_pos hup] at hnearest
    rw [if_pos (show roundUp q r den from hup)]
    exact hnearest
  · rw [if_neg hup] at hnearest
    rw [if_neg (show ¬ roundUp q r den from hup)]
    exact hnearest

end Magnitudes

end FloatGrid

end Playground
