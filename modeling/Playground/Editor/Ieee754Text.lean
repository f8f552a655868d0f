/-
Decimal text to patterns and back: the nearest pattern of a text, the exact decimal of a
pattern, and the shortest text of a 32-bit one.
-/
import Playground.Editor.Ieee754Shortest

namespace Playground

namespace Ieee754

open F64 (digitsValue)
open FloatGrid

variable {w : FloatWidth} {bits : ℕ}

theorem joinFloat_splitFloat (hbits : bits < 2 ^ w.bits) :
    joinFloat (splitFloat bits w) w = bits := by
  have hjoin := joinFloat_place w hbits
  rwa [place_div, place_mod] at hjoin

theorem decimalToFloat_inf (negative : Bool) (w : FloatWidth) :
    decimalToFloat (signText negative ++ "inf".toList) w =
      some (.pattern (joinFloat ⟨negative, w.topExponent, 0⟩ w) true) := by
  cases negative <;> rfl

/-- A nan's text reads as the quiet NaN with no other bit set. -/
theorem decimalToFloat_nan (negative : Bool) (w : FloatWidth) :
    decimalToFloat (signText negative ++ "nan".toList) w =
      some (.pattern (joinFloat ⟨negative, w.topExponent, 1 <<< (w.fractionBits - 1)⟩ w) true) := by
  cases negative <;> rfl

theorem decimalValue_zero (negative : Bool) :
    decimalValue (signText negative ++ ['0']) = some (negative, 0) := by
  have hspells : Spells (['0'], []) 0 := ⟨by simp, List.cons_ne_nil _ _, by simp [digitsValue]⟩
  exact hspells.decimalValue negative

theorem decimalToFloat_zero (negative : Bool) (w : FloatWidth) :
    decimalToFloat (signText negative ++ ['0']) w =
      some (.pattern (joinFloat ⟨negative, 0, 0⟩ w) true) := by
  have hlen : (signText negative ++ ['0']).length ≤ maxValueText := by
    cases negative <;> simp [signText, maxValueText]
  obtain ⟨n, hnear, hparsed⟩ := decimalToFloat_nearest w hlen (decimalValue_zero negative)
  have hself := nearest_self (magnitude_strictMono w) 0
  rw [magnitude_zero] at hself
  obtain rfl : n = 0 := hnear.unique (magnitude_strictMono w) hself
  rw [hparsed, nearestParsed, if_neg (fun h => h.1 rfl),
    if_neg (not_le.mpr (infinityPlace_pos w)), magnitude_zero, Nat.zero_div, Nat.zero_mod,
    decide_eq_true rfl]

theorem decimalValue_nonneg {text : List Char} {negative : Bool} {y : ℚ}
    (h : decimalValue text = some (negative, y)) : 0 ≤ y := by
  obtain ⟨m, -, hm⟩ := Option.bind_eq_some_iff.mp h
  split at hm
  · cases hm
  · simp only [Option.some.injEq, Prod.mk.injEq] at hm
    rw [← hm.2, DecimalMatch.value]
    positivity

def isNaNClass (kind : FloatClass) : Prop := kind = .quietNaN ∨ kind = .signallingNaN

instance (kind : FloatClass) : Decidable (isNaNClass kind) :=
  inferInstanceAs (Decidable (_ ∨ _))

/-- The classes by their fields: an exponent below the top one is finite. -/
theorem classify_cases (bits : ℕ) (w : FloatWidth) :
    (splitFloat bits w).exponent < w.topExponent ∧ ¬ isNaNClass (classify bits w) ∨
    (splitFloat bits w).exponent = w.topExponent ∧
      ((splitFloat bits w).fraction = 0 ∧ classify bits w = .infinity ∨
        isNaNClass (classify bits w)) := by
  have hexp := exponent_lt w bits
  have htop := topExponent_eq w
  have hpos := topExponent_pos w
  rcases Nat.lt_or_ge (splitFloat bits w).exponent w.topExponent with hlt | hge
  · left
    refine ⟨hlt, ?_⟩
    rcases classify_of_finite w hlt with h | h | h <;> rw [h] <;> decide
  · right
    have heq : (splitFloat bits w).exponent = w.topExponent := by omega
    refine ⟨heq, ?_⟩
    have hne : w.topExponent ≠ 0 := hpos.ne'
    simp only [classify, heq, hne, if_false, lt_irrefl]
    by_cases hfraction : (splitFloat bits w).fraction = 0
    · exact .inl ⟨hfraction, if_pos hfraction⟩
    · right
      rw [if_neg hfraction]
      split
      · exact .inl rfl
      · exact .inr rfl

variable {js : NumberText}

theorem formatFloatValue_zero (hzero : place .w32 bits = 0) :
    formatFloatValue js bits .w32 = signText (splitFloat bits .w32).sign ++ ['0'] := by
  have hexp : (splitFloat bits .w32).exponent = 0 := by
    rw [← place_div, hzero, Nat.zero_div]
  have hfraction : (splitFloat bits .w32).fraction = 0 := by
    rw [← place_mod, hzero, Nat.zero_mod]
  have hclass : classify bits .w32 = .zero := by simp [classify, hexp, hfraction]
  simp only [formatFloatValue, hclass]

theorem formatFloatValue_infinity (h : classify bits .w32 = .infinity) :
    formatFloatValue js bits .w32 = signText (splitFloat bits .w32).sign ++ "inf".toList := by
  simp only [formatFloatValue, h]

theorem formatFloatValue_nan (h : isNaNClass (classify bits .w32)) :
    formatFloatValue js bits .w32 = signText (splitFloat bits .w32).sign ++ "nan".toList := by
  rcases h with h | h <;> simp only [formatFloatValue, h]

/-- Every pattern but a NaN's is read back from its text. -/
theorem decimalToFloat_formatFloatValue (hjs : PrintsDecimals js) (hbits : bits < 2 ^ 32)
    (hnan : ¬ isNaNClass (classify bits .w32)) :
    ∃ exact, decimalToFloat (formatFloatValue js bits .w32) .w32 =
      some (.pattern bits exact) := by
  have hjoin : joinFloat (splitFloat bits .w32) .w32 = bits := joinFloat_splitFloat hbits
  rcases classify_cases bits .w32 with ⟨hfinite, -⟩ | ⟨htop, ⟨hfraction, hinf⟩ | h⟩
  · by_cases hzero : place .w32 bits = 0
    · have hfields : splitFloat bits .w32 = ⟨(splitFloat bits .w32).sign, 0, 0⟩ := by
        have hexp := place_div .w32 bits
        have hfraction := place_mod .w32 bits
        rw [hzero, Nat.zero_div] at hexp
        rw [hzero, Nat.zero_mod] at hfraction
        calc splitFloat bits .w32 = ⟨(splitFloat bits .w32).sign, (splitFloat bits .w32).exponent,
              (splitFloat bits .w32).fraction⟩ := rfl
          _ = ⟨(splitFloat bits .w32).sign, 0, 0⟩ := by rw [← hexp, ← hfraction]
      refine ⟨true, ?_⟩
      rw [formatFloatValue_zero hzero, decimalToFloat_zero, ← hfields, hjoin]
    · obtain ⟨y, hlen, hvalue, hnear, -⟩ := formatFloatValue_spec hjs hbits hzero hfinite
      have hback := (readsBack_iff hlen hvalue hbits hfinite hzero).mpr hnear
      unfold readsBack at hback
      split at hback
      · next back exact heq =>
          have hsame : back = bits := by simpa using hback
          exact ⟨exact, by rw [heq, hsame]⟩
      · cases hback
  · refine ⟨true, ?_⟩
    rw [formatFloatValue_infinity hinf, decimalToFloat_inf, ← hfraction, ← htop, hjoin]
  · exact absurd h hnan

/-- No decimal of fewer digits reads as the pattern. -/
theorem formatFloatValue_shortest (hjs : PrintsDecimals js) (hbits : bits < 2 ^ 32)
    {text : List Char} {negative : Bool} {y : ℚ} {exact : Bool} {d : ℕ}
    (hlen : text.length ≤ maxValueText) (hvalue : decimalValue text = some (negative, y))
    (hreads : decimalToFloat text .w32 = some (.pattern bits exact)) (hdigits : HasDigits y d) :
    ∃ printed, decimalValue (formatFloatValue js bits .w32) =
        some ((splitFloat bits .w32).sign, printed) ∧ HasDigits printed d := by
  obtain ⟨n, hnear, hparsed⟩ := decimalToFloat_nearest FloatWidth.w32 hlen hvalue
  rw [hparsed, Option.some.injEq] at hreads
  have hplace := place_of_nearestParsed FloatWidth.w32 hreads
  have hlt : n < infinityPlace .w32 := by
    unfold nearestParsed at hreads
    split at hreads
    · cases hreads
    · split at hreads
      · cases hreads
      · next h => exact not_le.mp h
  have hfinite : (splitFloat bits .w32).exponent < FloatWidth.w32.topExponent := by
    rw [← place_div, hplace]
    exact (Nat.div_lt_iff_lt_mul (Nat.two_pow_pos _)).mpr hlt
  by_cases hzero : place .w32 bits = 0
  · refine ⟨0, ?_, 0, Nat.pow_pos (by decide), 0, by simp⟩
    rw [formatFloatValue_zero hzero, decimalValue_zero]
  · obtain ⟨printed, -, hprinted, -, hshort⟩ := formatFloatValue_spec hjs hbits hzero hfinite
    have hy : 0 < y := by
      refine lt_of_le_of_ne (decimalValue_nonneg hvalue) fun h => hzero ?_
      have hself := nearest_self (magnitude_strictMono .w32) 0
      rw [magnitude_zero, h] at hself
      exact hplace.trans (hnear.unique (magnitude_strictMono .w32) hself)
    exact ⟨printed, hprinted, hshort y d hy (hplace ▸ hnear) hdigits⟩

section Positional

/-- A decimal printed in full, zeros and all. -/
def positional (c : ℕ) (k : ℤ) : List Char × List Char :=
  if 0 ≤ k then (Nat.toDigits 10 (c * 10 ^ k.toNat), [])
  else
    let digits := padStart ((-k).toNat + 1) (Nat.toDigits 10 c)
    (digits.take (digits.length - (-k).toNat), digits.drop (digits.length - (-k).toNat))

/-- A printer that writes every number in full. -/
def positionalText : NumberText where
  double := fun _ => []
  decimal := fun negative c k => signText negative ++ decimalText (positional c k)

theorem positional_spells (c : ℕ) (k : ℤ) : Spells (positional c k) ((c : ℚ) * 10 ^ k) := by
  rw [positional]
  by_cases hk : 0 ≤ k
  · rw [if_pos hk]
    obtain ⟨j, rfl⟩ := Int.eq_ofNat_of_zero_le hk
    refine ⟨?_, Nat.toDigits_ne_nil, ?_⟩
    · rw [List.append_nil]
      exact isDigit_toDigits
    · rw [List.append_nil, Assembler.digitsValue_toDigits, Int.toNat_natCast]
      simp
  · rw [if_neg hk]
    obtain ⟨j, hj⟩ := Int.eq_ofNat_of_zero_le (show 0 ≤ -k by omega)
    obtain rfl : k = -(j : ℤ) := by omega
    simp only [neg_neg, Int.toNat_natCast]
    have hall : ∀ c' ∈ padStart (j + 1) (Nat.toDigits 10 c), c'.isDigit = true :=
      isDigit_padStart isDigit_toDigits
    have hvalue : digitsValue (padStart (j + 1) (Nat.toDigits 10 c)) = c := by
      rw [digitsValue_padStart, Assembler.digitsValue_toDigits]
    have hlen : j + 1 ≤ (padStart (j + 1) (Nat.toDigits 10 c)).length := by
      rw [length_padStart]
      exact le_max_left _ _
    generalize padStart (j + 1) (Nat.toDigits 10 c) = digits at hall hvalue hlen
    refine ⟨?_, ?_, ?_⟩
    · rwa [List.take_append_drop]
    · rw [← List.length_pos_iff, List.length_take]
      omega
    · rw [List.take_append_drop, hvalue, List.length_drop]
      congr 2
      omega

theorem length_positional {c : ℕ} {k : ℤ} (hc : c ≤ 10 ^ 9) (hlow : -60 ≤ k) (hhigh : k ≤ 60) :
    ((positional c k).1 ++ (positional c k).2).length ≤ 71 := by
  rw [positional]
  by_cases hk : 0 ≤ k
  · rw [if_pos hk, List.append_nil, Nat.length_toDigits_le_iff (by decide) (by decide)]
    calc c * 10 ^ k.toNat ≤ 10 ^ 9 * 10 ^ 60 :=
          Nat.mul_le_mul hc (Nat.pow_le_pow_right (by decide) (by omega))
      _ < 10 ^ 71 := by norm_num
  · rw [if_neg hk]
    have hcount : (Nat.toDigits 10 c).length ≤ 10 := by
      rw [Nat.length_toDigits_le_iff (by decide) (by decide)]
      omega
    simp only [List.take_append_drop]
    rw [length_padStart]
    omega

theorem positionalText_prints : PrintsDecimals positionalText where
  length := by
    intro negative c k _ hc hlow hhigh
    have hcount := length_positional hc hlow hhigh
    have hsign : (signText negative).length ≤ 1 := by cases negative <;> decide
    have htext : (decimalText (positional c k)).length ≤
        ((positional c k).1 ++ (positional c k).2).length + 1 := by
      rw [decimalText]
      split
      · rw [List.length_append]
        omega
      · rw [List.length_append, List.length_append, List.length_cons]
        omega
    show (signText negative ++ decimalText (positional c k)).length ≤ 2000
    rw [List.length_append]
    omega
  value := fun negative c k _ _ _ _ => (positional_spells c k).decimalValue negative

end Positional

/-- Decimal text is rounded to the nearest pattern, ties to the even one; a finite pattern's
exact decimal reads back exactly; the text of a 32-bit pattern reads back unless it is a NaN's,
which reads as its sign's quiet NaN, and no text of fewer digits reads as the pattern. -/
theorem decimal_float_conversion {js : NumberText} (hjs : PrintsDecimals js) :
    (∀ (w : FloatWidth) text negative x, text.length ≤ maxValueText →
      decimalValue text = some (negative, x) →
      ∃ n, Nearest (magnitude w) x n ∧
        decimalToFloat text w = some (nearestParsed w negative x n)) ∧
    (∀ (w : FloatWidth) bits, bits < 2 ^ w.bits → (splitFloat bits w).exponent < w.topExponent →
      decimalToFloat (exactValue js bits w) w = some (.pattern bits true)) ∧
    ∀ bits, bits < 2 ^ 32 →
      (¬ isNaNClass (classify bits .w32) → ∃ exact,
        decimalToFloat (formatFloatValue js bits .w32) .w32 = some (.pattern bits exact)) ∧
      (isNaNClass (classify bits .w32) →
        decimalToFloat (formatFloatValue js bits .w32) .w32 =
          some (.pattern (joinFloat ⟨(splitFloat bits .w32).sign, FloatWidth.w32.topExponent,
            1 <<< 22⟩ .w32) true)) ∧
      ∀ text negative y exact d, text.length ≤ maxValueText →
        decimalValue text = some (negative, y) →
        decimalToFloat text .w32 = some (.pattern bits exact) → HasDigits y d →
        ∃ printed, decimalValue (formatFloatValue js bits .w32) =
            some ((splitFloat bits .w32).sign, printed) ∧ HasDigits printed d := by
  refine ⟨?_, ?_, ?_⟩
  · exact fun w text negative x hlen hvalue => decimalToFloat_nearest w hlen hvalue
  · exact fun w bits hbits hfinite => decimalToFloat_exactValue w js hbits hfinite
  · intro bits hbits
    refine ⟨decimalToFloat_formatFloatValue hjs hbits, ?_, ?_⟩
    · intro hnan
      rw [formatFloatValue_nan hnan, decimalToFloat_nan]
      rfl
    · intro text negative y exact d hlen hvalue hreads hdigits
      exact formatFloatValue_shortest hjs hbits hlen hvalue hreads hdigits

/-- One, printed in one digit. -/
theorem decimal_float_conversion_one :
    formatFloatValue positionalText 0x3F800000 .w32 = ['1'] ∧
      ((¬ isNaNClass (classify 0x3F800000 .w32) → ∃ exact,
        decimalToFloat (formatFloatValue positionalText 0x3F800000 .w32) .w32 =
          some (.pattern 0x3F800000 exact)) ∧
      (isNaNClass (classify 0x3F800000 .w32) →
        decimalToFloat (formatFloatValue positionalText 0x3F800000 .w32) .w32 =
          some (.pattern (joinFloat ⟨(splitFloat 0x3F800000 .w32).sign,
            FloatWidth.w32.topExponent, 1 <<< 22⟩ .w32) true)) ∧
      ∀ text negative y exact d, text.length ≤ maxValueText →
        decimalValue text = some (negative, y) →
        decimalToFloat text .w32 = some (.pattern 0x3F800000 exact) → HasDigits y d →
        ∃ printed, decimalValue (formatFloatValue positionalText 0x3F800000 .w32) =
            some ((splitFloat 0x3F800000 .w32).sign, printed) ∧ HasDigits printed d) :=
  ⟨by decide +kernel,
    (decimal_float_conversion positionalText_prints).2.2 0x3F800000 (by decide)⟩

/-- A signalling NaN's text is that of any NaN, and reads as another pattern. -/
theorem nan_not_read_back :
    classify 0x7F800001 .w32 = .signallingNaN ∧
      decimalToFloat (formatFloatValue positionalText 0x7F800001 .w32) .w32 =
        some (.pattern 0x7FC00000 true) ∧ (0x7FC00000 : ℕ) ≠ 0x7F800001 := by
  decide

end Ieee754

end Playground
