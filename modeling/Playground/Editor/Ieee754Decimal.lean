/-
Decimal text rounds to the nearest pattern: the value the text writes, what the double that
holds its exponent keeps of it, and the cut-offs far outside every format.
-/
import Playground.Editor.Ieee754Rounding
import Playground.Assembler.NegativeImmediate

namespace Playground

namespace Ieee754

open F64 (takeSign digitsValue)
open FloatGrid

section Digits

variable {digits : List Char} {c : Char}

theorem digitsValue_eq (digits : List Char) :
    digitsValue digits = Nat.ofDigitChars 10 digits 0 := by
  rw [Nat.ofDigitChars_eq_foldl, digitsValue]
  simp only [Nat.mul_comm]

theorem digitsValue_append (a b : List Char) :
    digitsValue (a ++ b) = digitsValue a * 10 ^ b.length + digitsValue b := by
  rw [digitsValue_eq, Nat.ofDigitChars_append, Nat.ofDigitChars_eq_ofDigitChars_zero,
    digitsValue_eq a, digitsValue_eq b, Nat.mul_comm]

theorem digitsValue_cons (c : Char) (digits : List Char) :
    digitsValue (c :: digits) = (c.toNat - 48) * 10 ^ digits.length + digitsValue digits := by
  have hone : digitsValue [c] = c.toNat - 48 := by simp [digitsValue]
  rw [← List.singleton_append, digitsValue_append, hone]

theorem digitsValue_replicate_zero (n : ℕ) : digitsValue (List.replicate n '0') = 0 := by
  rw [digitsValue_eq, Nat.ofDigitChars_replicate_zero, Nat.mul_zero]

theorem toNat_of_isDigit (h : c.isDigit = true) : 48 ≤ c.toNat ∧ c.toNat ≤ 57 := by
  simpa [Char.isDigit, UInt32.le_iff_toNat_le] using h

theorem digitsValue_lt (h : ∀ c ∈ digits, c.isDigit = true) :
    digitsValue digits < 10 ^ digits.length := by
  induction digits with
  | nil => exact one_pos
  | cons c digits ih =>
      have hrest := ih fun d hd => h d (List.mem_cons_of_mem _ hd)
      have hdigit := toNat_of_isDigit (h c List.mem_cons_self)
      have hle : (c.toNat - 48) * 10 ^ digits.length ≤ 9 * 10 ^ digits.length :=
        Nat.mul_le_mul_right _ (by omega)
      rw [digitsValue_cons, List.length_cons, pow_succ]
      omega

/-- A first digit over zero bounds the number from below. -/
theorem le_digitsValue (h : c.isDigit = true) (hzero : c ≠ '0') (digits : List Char) :
    10 ^ digits.length ≤ digitsValue (c :: digits) := by
  have hdigit := toNat_of_isDigit h
  have hne : c.toNat ≠ 48 := fun heq => hzero (Char.toNat_inj.mp heq)
  rw [digitsValue_cons]
  have hle : 1 * 10 ^ digits.length ≤ (c.toNat - 48) * 10 ^ digits.length :=
    Nat.mul_le_mul_right _ (by omega)
  omega

theorem digitsValue_dropZeros (digits : List Char) :
    digitsValue (digits.dropWhile (· = '0')) = digitsValue digits := by
  induction digits with
  | nil => rfl
  | cons c digits ih =>
      by_cases hzero : c = '0'
      · subst hzero
        rw [List.dropWhile_cons_of_pos (by simp), ih, digitsValue_cons]
        simp
      · rw [List.dropWhile_cons_of_neg (by simpa using hzero)]

/-- What is left without the leading zeros: nothing, or a number of that many digits. -/
theorem dropZeros_bounds (h : ∀ c ∈ digits, c.isDigit = true) :
    digits.dropWhile (· = '0') = [] ∨
      10 ^ ((digits.dropWhile (· = '0')).length - 1) ≤ digitsValue digits ∧
        digitsValue digits < 10 ^ (digits.dropWhile (· = '0')).length := by
  cases hrest : digits.dropWhile (· = '0') with
  | nil => exact Or.inl rfl
  | cons c rest =>
      right
      have hall : ∀ d ∈ c :: rest, d.isDigit = true := fun d hd =>
        h d ((List.dropWhile_sublist _).mem (hrest ▸ hd))
      have hzero : c ≠ '0' := by
        have hhead := List.head?_dropWhile_not (fun c : Char => decide (c = '0')) digits
        rw [hrest] at hhead
        simpa using hhead
      rw [← digitsValue_dropZeros digits, hrest]
      exact ⟨le_digitsValue (hall c List.mem_cons_self) hzero rest, digitsValue_lt hall⟩

end Digits

namespace JsNumber

variable {bound k z : ℤ} {x : JsNumber}

/-- What a double keeps of a whole number: all of it, or that it is past a bound, on its side. -/
inductive Keeps (bound : ℤ) (x : JsNumber) (z : ℤ) : Prop
  | same : x = .finite z → Keeps bound x z
  | large : x.above bound = true → bound < z → Keeps bound x z
  | small : x.below (-bound) = true → z < -bound → Keeps bound x z

theorem above_mono {a b : ℤ} (hab : a ≤ b) (h : x.above b = true) : x.above a = true := by
  cases x with
  | negInf => exact h
  | finite z => exact decide_eq_true (hab.trans_lt (of_decide_eq_true h))
  | posInf => rfl

theorem below_mono {a b : ℤ} (hab : a ≤ b) (h : x.below a = true) : x.below b = true := by
  cases x with
  | negInf => rfl
  | finite z => exact decide_eq_true ((of_decide_eq_true h).trans_le hab)
  | posInf => exact h

theorem Keeps.mono {bound' : ℤ} (h : Keeps bound x z) (hle : bound' ≤ bound) :
    Keeps bound' x z := by
  cases h with
  | same h => exact .same h
  | large h hz => exact .large (above_mono hle h) (hle.trans_lt hz)
  | small h hz => exact .small (below_mono (neg_le_neg hle) h) (hz.trans_le (neg_le_neg hle))

/-- A double keeps a whole number up to 53 bits, and of a longer one that it is large. -/
theorem ofInt_keeps (z : ℤ) : Keeps (2 ^ 52 - 1) (ofInt z) z := by
  rcases le_or_gt (Nat.size z.natAbs) 53 with hsize | hsize
  · have habs : z.natAbs < 2 ^ 53 := Nat.size_le.mp hsize
    have hsmall : ¬ 2 ^ 1024 ≤ z.natAbs := by
      rw [not_le]
      exact habs.trans_le (pow_le_pow_right₀ one_le_two (by decide))
    apply Keeps.same
    simp only [ofInt, Nat.sub_eq_zero_of_le hsize, pow_zero, F64.roundDiv_one, Nat.mul_one]
    rw [if_neg hsmall]
    congr 1
    split
    · omega
    · omega
  · obtain ⟨k, hk⟩ := Nat.exists_eq_add_of_lt hsize
    have hscale : Nat.size z.natAbs - 53 = k + 1 := by omega
    have habs : 2 ^ (53 + k) ≤ z.natAbs := by
      by_contra hlt
      have := Nat.size_le.mpr (not_le.mp hlt)
      omega
    have hquot : 2 ^ 52 ≤ z.natAbs / 2 ^ (k + 1) := by
      rw [Nat.le_div_iff_mul_le (Nat.two_pow_pos _), ← pow_add]
      exact (Nat.pow_le_pow_right two_pos (by omega)).trans habs
    have hrounded : 2 ^ 52 ≤ F64.roundDiv z.natAbs (2 ^ (k + 1)) * 2 ^ (k + 1) :=
      (hquot.trans (F64.div_le_roundDiv _ _)).trans (Nat.le_mul_of_pos_right _ (Nat.two_pow_pos _))
    have hlarge : 2 ^ 52 ≤ z.natAbs :=
      (Nat.pow_le_pow_right two_pos (by omega)).trans habs
    simp only [ofInt, hscale]
    generalize F64.roundDiv z.natAbs (2 ^ (k + 1)) * 2 ^ (k + 1) = rounded at hrounded
    rcases lt_or_ge z 0 with hneg | hpos
    · refine .small ?_ (by omega)
      simp only [if_pos hneg]
      split
      · rfl
      · exact decide_eq_true (by omega)
    · refine .large ?_ (by omega)
      simp only [if_neg (not_lt.mpr hpos)]
      split
      · rfl
      · exact decide_eq_true (by omega)

/-- A sum keeps as much, short of what was added. -/
theorem Keeps.add {c : ℤ} (h : Keeps bound x z) (hk : |k| ≤ c) (hc : c ≤ bound)
    (hbound : bound ≤ 2 ^ 52 - 1) : Keeps (bound - c) (x.add k) (z + k) := by
  obtain ⟨hlow, hhigh⟩ := abs_le.mp hk
  cases h with
  | same h =>
      subst h
      exact (ofInt_keeps (z + k)).mono (by omega)
  | large h hz =>
      refine .large ?_ (by omega)
      cases x with
      | negInf => cases h
      | posInf => rfl
      | finite y =>
          have hy : bound < y := of_decide_eq_true h
          rw [add]
          cases ofInt_keeps (y + k) with
          | same heq =>
              rw [heq]
              exact decide_eq_true (by omega)
          | large habove _ => exact above_mono (by omega) habove
          | small _ hlt => omega
  | small h hz =>
      refine .small ?_ (by omega)
      cases x with
      | negInf => rfl
      | posInf => cases h
      | finite y =>
          have hy : y < -bound := of_decide_eq_true h
          rw [add]
          cases ofInt_keeps (y + k) with
          | same heq =>
              rw [heq]
              exact decide_eq_true (by omega)
          | large _ hlt => omega
          | small hbelow _ => exact below_mono (by omega) hbelow

/-- Inside the bound a comparison is the whole number's own. -/
theorem Keeps.above_eq {b : ℤ} (h : Keeps bound x z) (hb : |b| ≤ bound) :
    x.above b = decide (b < z) := by
  obtain ⟨hlow, hhigh⟩ := abs_le.mp hb
  cases h with
  | same h =>
      rw [h]
      rfl
  | large h hz => rw [above_mono hhigh h, decide_eq_true (by omega)]
  | small h hz =>
      rw [decide_eq_false (by omega)]
      cases x with
      | negInf => rfl
      | posInf => cases h
      | finite y =>
          have hy : y < -bound := of_decide_eq_true h
          exact decide_eq_false (by omega)

theorem Keeps.below_eq {b : ℤ} (h : Keeps bound x z) (hb : |b| ≤ bound) :
    x.below b = decide (z < b) := by
  obtain ⟨hlow, hhigh⟩ := abs_le.mp hb
  cases h with
  | same h =>
      rw [h]
      rfl
  | large h hz =>
      rw [decide_eq_false (by omega)]
      cases x with
      | negInf => cases h
      | posInf => rfl
      | finite y =>
          have hy : bound < y := of_decide_eq_true h
          exact decide_eq_false (by omega)
  | small h hz => rw [below_mono (by omega) h, decide_eq_true (by omega)]

theorem Keeps.eq_finite (h : Keeps bound x z) (hz : |z| ≤ bound) : x = .finite z := by
  obtain ⟨hlow, hhigh⟩ := abs_le.mp hz
  cases h with
  | same h => exact h
  | large _ hlt => omega
  | small _ hlt => omega

end JsNumber

section Value

variable {text : List Char} {m : DecimalMatch}

namespace DecimalMatch

/-- The number the match writes, without its sign. -/
def value (m : DecimalMatch) : ℚ :=
  digitsValue (m.whole ++ m.after) * 10 ^ (m.written - m.after.length)

end DecimalMatch

/-- The number a decimal text writes: its sign, and its magnitude exactly. -/
def decimalValue (text : List Char) : Option (Bool × ℚ) :=
  (matchDecimal text).bind fun m =>
    if m.whole ++ m.after = [] then none else some (m.negative, m.value)

theorem length_takeSign (text : List Char) : (takeSign text).2.length ≤ text.length := by
  unfold takeSign
  split
  · exact Nat.le_succ _
  · exact Nat.le_succ _
  · exact le_rfl

theorem matchAfter_digits (rest : List Char) :
    (∀ c ∈ (matchAfter rest).1, c.isDigit = true) ∧
      (matchAfter rest).1.length ≤ rest.length := by
  unfold matchAfter
  split
  · exact ⟨fun c hc => List.mem_takeWhile_imp hc,
      (List.takeWhile_sublist _).length_le.trans (Nat.le_succ _)⟩
  · exact ⟨fun c hc => absurd hc List.not_mem_nil, Nat.zero_le _⟩

theorem matchDecimal_digits (h : matchDecimal text = some m) :
    (∀ c ∈ m.whole ++ m.after, c.isDigit = true) ∧
      m.whole.length + m.after.length ≤ text.length := by
  obtain ⟨exponent, -, rfl⟩ := Option.map_eq_some_iff.mp h
  obtain ⟨hdigits, hafter⟩ := matchAfter_digits ((takeSign text).2.dropWhile Char.isDigit)
  have hlen := length_takeSign text
  have hsplit : ((takeSign text).2.takeWhile Char.isDigit).length +
      ((takeSign text).2.dropWhile Char.isDigit).length = (takeSign text).2.length := by
    rw [← List.length_append, List.takeWhile_append_dropWhile]
  constructor
  · intro c hc
    rcases List.mem_append.mp hc with hc | hc
    · exact List.mem_takeWhile_imp hc
    · exact hdigits c hc
  · change ((takeSign text).2.takeWhile Char.isDigit).length +
      (matchAfter ((takeSign text).2.dropWhile Char.isDigit)).1.length ≤ text.length
    omega

theorem matchDecimal_of_special {special : Bool × Bool} (h : matchSpecial text = some special) :
    matchDecimal text = none := by
  have hletter : ∃ c rest, (takeSign text).2 = c :: rest ∧ (c.toLower = 'i' ∨ c.toLower = 'n') := by
    unfold matchSpecial at h
    generalize takeSign text = signed at h ⊢
    obtain ⟨negative, rest⟩ := signed
    simp only at h ⊢
    generalize hname : rest.map Char.toLower = name at h
    split at h
    · rename_i hinf
      rcases hinf with rfl | rfl
      · obtain ⟨c, rest, heq, hc, -⟩ := List.map_eq_cons_iff.mp hname
        exact ⟨c, rest, heq, Or.inl hc⟩
      · obtain ⟨c, rest, heq, hc, -⟩ := List.map_eq_cons_iff.mp hname
        exact ⟨c, rest, heq, Or.inl hc⟩
    · split at h
      · rename_i hnan
        subst hnan
        obtain ⟨c, rest, heq, hc, -⟩ := List.map_eq_cons_iff.mp hname
        exact ⟨c, rest, heq, Or.inr hc⟩
      · cases h
  obtain ⟨c, rest, heq, hc⟩ := hletter
  have hcases : c = 'i' ∨ c = 'I' ∨ c = 'n' ∨ c = 'N' := by
    rcases hc with hc | hc
    · exact (Assembler.toLower_cases hc).elim Or.inl fun h => Or.inr (Or.inl h)
    · exact (Assembler.toLower_cases hc).elim (fun h => Or.inr (Or.inr (Or.inl h)))
        fun h => Or.inr (Or.inr (Or.inr h))
  unfold matchDecimal
  simp only [heq]
  rcases hcases with rfl | rfl | rfl | rfl <;> rfl

end Value

section Nearest

variable (w : FloatWidth) {text : List Char} {m : DecimalMatch} {x : ℚ} {n : ℕ}

/-- What a number with a sign reads as, given the place its magnitude is nearest to. -/
def nearestParsed (negative : Bool) (x : ℚ) (n : ℕ) : Parsed :=
  if x ≠ 0 ∧ n = 0 then .underflow
  else if infinityPlace w ≤ n then .overflow
  else .pattern (joinFloat ⟨negative, n / 2 ^ w.fractionBits, n % 2 ^ w.fractionBits⟩ w)
    (decide (x = magnitude w n))

theorem magnitude_zero : magnitude w 0 = 0 := by
  rw [magnitude_eq, mag]
  simp

theorem infinityPlace_pos : 0 < infinityPlace w :=
  Nat.mul_pos (topExponent_pos w) (Nat.two_pow_pos _)

theorem magnitude_infinityPlace :
    magnitude w (infinityPlace w) = 2 ^ (w.topExponent - w.bias : ℤ) := by
  have hdiv : infinityPlace w / 2 ^ w.fractionBits = w.topExponent :=
    Nat.mul_div_cancel _ (Nat.two_pow_pos _)
  have hmod : infinityPlace w % 2 ^ w.fractionBits = 0 := Nat.mul_mod_left _ _
  rw [magnitude, hdiv, hmod, if_neg (topExponent_pos w).ne', Nat.add_zero, Nat.cast_pow,
    Nat.cast_ofNat, ← zpow_natCast, ← zpow_add₀ two_ne_zero]
  congr 1
  ring

theorem two_zpow_le (k : ℕ) : (2 : ℚ) ^ (3 * k : ℤ) ≤ 10 ^ (k : ℤ) := by
  rw [zpow_mul, zpow_natCast, zpow_natCast]
  exact pow_le_pow_left₀ (by norm_num) (by norm_num) k

theorem magnitude_infinityPlace_le : magnitude w (infinityPlace w) ≤ 10 ^ (400 : ℤ) := by
  have hexp : (w.topExponent - w.bias : ℤ) ≤ 3 * (400 : ℕ) := by cases w <;> decide
  rw [magnitude_infinityPlace]
  exact (zpow_le_zpow_right₀ one_le_two hexp).trans (two_zpow_le 400)

theorem two_mul_lt_unit {x : ℚ} (hx : x < 10 ^ (-401 : ℤ)) : 2 * x < unit w := by
  have hexp : -(3 * (401 : ℕ)) + 1 ≤ (1 - w.bias - w.fractionBits : ℤ) := by cases w <;> decide
  calc 2 * x < 2 * 10 ^ (-401 : ℤ) := by linarith
    _ ≤ 2 * 2 ^ (-(3 * (401 : ℕ)) : ℤ) := by
        rw [zpow_neg, zpow_neg]
        exact mul_le_mul_of_nonneg_left
          (inv_anti₀ (zpow_pos two_pos _) (two_zpow_le 401)) two_pos.le
    _ = 2 ^ (-(3 * (401 : ℕ)) + 1 : ℤ) := by rw [zpow_add_one₀ two_ne_zero, mul_comm]
    _ ≤ unit w := zpow_le_zpow_right₀ one_le_two hexp

theorem decimal_ratio (digits : ℕ) (e : ℤ) :
    (digits : ℚ) * 10 ^ e =
      ((digits * 10 ^ (max e 0).toNat : ℕ) : ℚ) / ((10 ^ (max (-e) 0).toNat : ℕ) : ℚ) := by
  rcases le_total 0 e with he | he
  · obtain ⟨k, rfl⟩ := Int.eq_ofNat_of_zero_le he
    rw [max_eq_left he, max_eq_right (by omega), Int.toNat_natCast, zpow_natCast]
    simp
  · obtain ⟨k, hk⟩ := Int.eq_ofNat_of_zero_le (show 0 ≤ -e by omega)
    obtain rfl : e = -(k : ℤ) := by omega
    rw [max_eq_right he, neg_neg, max_eq_left (by omega), Int.toNat_natCast, zpow_neg,
      zpow_natCast]
    push_cast
    simp [div_eq_mul_inv]

/-- Past every format's largest. -/
theorem infinityPlace_le_of_large (h : Nearest (magnitude w) x n) (hx : 10 ^ (400 : ℤ) ≤ x) :
    infinityPlace w ≤ n :=
  h.le_of_le (magnitude_strictMono w) ((magnitude_infinityPlace_le w).trans hx)

/-- Nearer to zero than to every format's smallest. -/
theorem eq_zero_of_small (h : Nearest (magnitude w) x n) (hpos : 0 ≤ x)
    (hx : x < 10 ^ (-401 : ℤ)) : n = 0 := by
  have hone : magnitude w 1 = unit w := by
    have hlt : 1 < 2 ^ w.fractionBits := Nat.one_lt_two_pow (fractionBits_pos w).ne'
    rw [magnitude_eq, mag, if_pos (Nat.div_eq_of_lt hlt), Nat.mod_eq_of_lt hlt, Nat.cast_one,
      one_mul]
  have hle : n ≤ 0 := by
    apply h.lt_of_two_mul_lt (magnitude_strictMono w)
    · rwa [magnitude_zero]
    · rw [magnitude_zero, Nat.zero_add, hone, zero_add]
      exact two_mul_lt_unit w hx
  exact Nat.le_zero.mp hle

/-- The bounds the number of digits gives. -/
theorem value_bounds (h : ∀ c ∈ m.whole ++ m.after, c.isDigit = true)
    (hne : (m.whole ++ m.after).dropWhile (· = '0') ≠ []) :
    (10 : ℚ) ^ (m.written - m.after.length + ((m.whole ++ m.after).dropWhile (· = '0')).length - 1)
        ≤ m.value ∧
      m.value <
        10 ^ (m.written - m.after.length + ((m.whole ++ m.after).dropWhile (· = '0')).length) := by
  obtain ⟨hlow, hhigh⟩ := (dropZeros_bounds h).resolve_left hne
  have hlen : 1 ≤ ((m.whole ++ m.after).dropWhile (· = '0')).length :=
    List.length_pos_iff.mpr hne
  generalize ((m.whole ++ m.after).dropWhile (· = '0')).length = length at hlow hhigh hlen
  have hscale : (0 : ℚ) < 10 ^ (m.written - m.after.length) := zpow_pos (by norm_num) _
  have hlow' : (10 : ℚ) ^ ((length - 1 : ℕ) : ℤ) ≤ digitsValue (m.whole ++ m.after) := by
    rw [zpow_natCast]
    exact_mod_cast hlow
  have hhigh' : (digitsValue (m.whole ++ m.after) : ℚ) < 10 ^ (length : ℤ) := by
    rw [zpow_natCast]
    exact_mod_cast hhigh
  rw [DecimalMatch.value]
  constructor
  · calc (10 : ℚ) ^ (m.written - m.after.length + length - 1)
        = 10 ^ ((length - 1 : ℕ) : ℤ) * 10 ^ (m.written - m.after.length) := by
          rw [← zpow_add₀ (by norm_num)]
          congr 1
          omega
      _ ≤ _ := mul_le_mul_of_nonneg_right hlow' hscale.le
  · rw [add_comm, zpow_add₀ (by norm_num)]
    exact mul_lt_mul_of_pos_right hhigh' hscale

/-- The double that holds the power of ten, and the sum that holds the magnitude. -/
theorem exp10_keeps (hafter : m.after.length ≤ maxValueText) {length : ℕ}
    (hlength : length ≤ maxValueText) :
    JsNumber.Keeps 4096 m.exp10 (m.written - m.after.length) ∧
      JsNumber.Keeps 4096 (m.exp10.add length) (m.written - m.after.length + length) := by
  have hafter' : |-(m.after.length : ℤ)| ≤ 2000 := by
    rw [abs_neg, Nat.abs_cast]
    exact_mod_cast hafter
  have hlength' : |(length : ℤ)| ≤ 2000 := by
    rw [Nat.abs_cast]
    exact_mod_cast hlength
  have hexp := (JsNumber.ofInt_keeps m.written).add hafter' (by norm_num) le_rfl
  rw [← sub_eq_add_neg] at hexp
  exact ⟨hexp.mono (by norm_num),
    (hexp.add hlength' (by norm_num) (by norm_num)).mono (by norm_num)⟩

theorem decimalToFloat_of_match (hlen : text.length ≤ maxValueText)
    (hmatch : matchDecimal text = some m) (hne : m.whole ++ m.after ≠ []) :
    decimalToFloat text w =
      if (m.whole ++ m.after).dropWhile (· = '0') = [] then
        some (.pattern (joinFloat ⟨m.negative, 0, 0⟩ w) true)
      else if 400 < m.written - m.after.length + ((m.whole ++ m.after).dropWhile (· = '0')).length
        then some .overflow
      else if m.written - m.after.length + ((m.whole ++ m.after).dropWhile (· = '0')).length < -400
        then some .underflow
      else
        match roundToFloat
            (digitsValue (m.whole ++ m.after) * 10 ^ (max (m.written - m.after.length) 0).toNat)
            (10 ^ (max (-(m.written - m.after.length : ℤ)) 0).toNat) w with
        | .overflow => some .overflow
        | .underflow => some .underflow
        | .fields exponent fraction exact =>
            some (.pattern (joinFloat ⟨m.negative, exponent, fraction⟩ w) exact) := by
  have hspecial : matchSpecial text = none := by
    cases hspecial : matchSpecial text with
    | none => rfl
    | some special =>
        rw [matchDecimal_of_special hspecial] at hmatch
        cases hmatch
  have hcount : ¬ m.whole.length + m.after.length = 0 := by
    rw [← List.length_append, List.length_eq_zero_iff]
    exact hne
  obtain ⟨hdigits, hsize⟩ := matchDecimal_digits hmatch
  have hlength : ((m.whole ++ m.after).dropWhile (· = '0')).length ≤ maxValueText := by
    have hle := (List.dropWhile_sublist (fun c => decide (c = '0'))
      (l := m.whole ++ m.after)).length_le
    rw [List.length_append] at hle
    omega
  obtain ⟨hexp, hmag⟩ := exp10_keeps (m := m) (by omega) hlength
  simp only [decimalToFloat, hspecial, if_pos hlen, hmatch, if_neg hcount,
    digitsValue_dropZeros, hmag.above_eq (b := 400) (by norm_num),
    hmag.below_eq (b := -400) (by norm_num), decide_eq_true_eq]
  by_cases hnil : (m.whole ++ m.after).dropWhile (· = '0') = []
  · rw [if_pos hnil, if_pos hnil]
  · rw [if_neg hnil, if_neg hnil]
    by_cases hlarge :
        400 < m.written - m.after.length + ((m.whole ++ m.after).dropWhile (· = '0')).length
    · rw [if_pos hlarge, if_pos hlarge]
    · rw [if_neg hlarge, if_neg hlarge]
      by_cases hsmall :
          m.written - m.after.length + ((m.whole ++ m.after).dropWhile (· = '0')).length < -400
      · rw [if_pos hsmall, if_pos hsmall]
      · rw [if_neg hsmall, if_neg hsmall]
        have hmax : maxValueText = 2000 := rfl
        rw [hexp.eq_finite (abs_le.mpr ⟨by omega, by omega⟩)]
        rfl

/-- Every decimal text the grammar takes reads as the nearest pattern. -/
theorem decimalToFloat_nearest {negative : Bool} (hlen : text.length ≤ maxValueText)
    (h : decimalValue text = some (negative, x)) :
    ∃ n, Nearest (magnitude w) x n ∧
      decimalToFloat text w = some (nearestParsed w negative x n) := by
  obtain ⟨m, hmatch, hm⟩ := Option.bind_eq_some_iff.mp h
  by_cases hne : m.whole ++ m.after = []
  · rw [if_pos hne] at hm
    cases hm
  rw [if_neg hne] at hm
  obtain ⟨rfl, rfl⟩ := Prod.mk.inj (Option.some.inj hm)
  obtain ⟨hdigits, -⟩ := matchDecimal_digits hmatch
  rw [decimalToFloat_of_match w hlen hmatch hne]
  by_cases hnil : (m.whole ++ m.after).dropWhile (· = '0') = []
  · have hzero : m.value = 0 := by
      have hvalue : digitsValue (m.whole ++ m.after) = 0 := by
        rw [← digitsValue_dropZeros, hnil]
        rfl
      rw [DecimalMatch.value, hvalue, Nat.cast_zero, zero_mul]
    refine ⟨0, ?_, ?_⟩
    · rw [hzero, ← magnitude_zero w]
      exact nearest_self (magnitude_strictMono w) 0
    · rw [if_pos hnil, hzero, nearestParsed, if_neg (by simp),
        if_neg (Nat.not_le_of_lt (infinityPlace_pos w)), magnitude_zero, Nat.zero_div,
        Nat.zero_mod, decide_eq_true rfl]
  rw [if_neg hnil]
  obtain ⟨hlow, hhigh⟩ := value_bounds hdigits hnil
  have hpos : 0 < m.value := (zpow_pos (by norm_num) _).trans_le hlow
  have hratio := decimal_ratio (digitsValue (m.whole ++ m.after)) (m.written - m.after.length)
  have hden : 0 < 10 ^ (max (-(m.written - m.after.length : ℤ)) 0).toNat := by positivity
  have hnum : 0 < digitsValue (m.whole ++ m.after) *
      10 ^ (max (m.written - m.after.length : ℤ) 0).toNat := by
    rw [DecimalMatch.value, hratio] at hpos
    by_contra hzero
    rw [Nat.le_zero.mp (not_lt.mp hzero), Nat.cast_zero, zero_div] at hpos
    exact lt_irrefl _ hpos
  have hnearest := nearest_placeOf w hnum hden
  have hround := roundToFloat_eq w hnum hden
  rw [← hratio, ← DecimalMatch.value] at hnearest hround
  refine ⟨_, hnearest, ?_⟩
  rw [hround]
  generalize placeOf w _ _ = n at hnearest
  rw [nearestParsed]
  by_cases hlarge :
      400 < m.written - m.after.length + ((m.whole ++ m.after).dropWhile (· = '0')).length
  · have hover := infinityPlace_le_of_large w hnearest
      ((zpow_le_zpow_right₀ (by norm_num) (by omega)).trans hlow)
    rw [if_pos hlarge, if_neg (fun h => absurd (infinityPlace_pos w) (by omega)), if_pos hover]
  rw [if_neg hlarge]
  by_cases hsmall :
      m.written - m.after.length + ((m.whole ++ m.after).dropWhile (· = '0')).length < -400
  · have hunder := eq_zero_of_small w hnearest hpos.le
      (hhigh.trans_le (zpow_le_zpow_right₀ (by norm_num) (by omega)))
    rw [if_pos hsmall, if_pos ⟨hpos.ne', hunder⟩]
  rw [if_neg hsmall, outcome]
  by_cases hn : n = 0
  · rw [if_pos hn, if_pos ⟨hpos.ne', hn⟩]
  · have hzero : ¬ (m.value ≠ 0 ∧ n = 0) := fun h => hn h.2
    rw [if_neg hn, if_neg hzero]
    by_cases hover : infinityPlace w ≤ n
    · rw [if_pos hover]
      exact congrArg some (if_pos hover).symm
    · rw [if_neg hover]
      exact congrArg some (if_neg hover).symm

end Nearest

end Ieee754

end Playground
