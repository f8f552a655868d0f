/-
The exact decimal of a finite pattern reads back as the pattern: the fields as arithmetic, what
the digits printed come to, and how many they are.
-/
import Playground.Editor.Ieee754Decimal

namespace Playground

namespace Ieee754

open F64 (takeSign digitsValue)
open FloatGrid

section Fields

variable (w : FloatWidth) {bits : ℕ}

theorem bits_eq : w.bits - 1 = w.exponentBits + w.fractionBits := by cases w <;> decide

theorem topExponent_eq : w.topExponent = 2 ^ w.exponentBits - 1 := by
  rw [FloatWidth.topExponent, Nat.one_shiftLeft]

theorem splitFloat_eq (bits : ℕ) :
    splitFloat bits w = ⟨decide (bits / 2 ^ (w.bits - 1) % 2 = 1),
      bits / 2 ^ w.fractionBits % 2 ^ w.exponentBits, bits % 2 ^ w.fractionBits⟩ := by
  simp only [splitFloat, Nat.one_shiftLeft, Nat.and_two_pow_sub_one_eq_mod, Nat.and_one_is_mod,
    Nat.shiftRight_eq_div_pow]

theorem joinFloat_eq {fields : FloatFields} (hexp : fields.exponent < 2 ^ w.exponentBits)
    (hfraction : fields.fraction < 2 ^ w.fractionBits) :
    joinFloat fields w = fields.sign.toNat * 2 ^ (w.bits - 1) +
      (fields.exponent * 2 ^ w.fractionBits + fields.fraction) := by
  have hlow : fields.exponent * 2 ^ w.fractionBits + fields.fraction < 2 ^ (w.bits - 1) := by
    rw [bits_eq, pow_add]
    calc fields.exponent * 2 ^ w.fractionBits + fields.fraction
        < (fields.exponent + 1) * 2 ^ w.fractionBits := by rw [Nat.succ_mul]; omega
      _ ≤ 2 ^ w.exponentBits * 2 ^ w.fractionBits := Nat.mul_le_mul_right _ hexp
  rw [joinFloat, Nat.or_assoc, ← Nat.shiftLeft_add_eq_or_of_lt hfraction, Nat.shiftLeft_eq
    fields.exponent, ← Nat.shiftLeft_add_eq_or_of_lt hlow, Nat.shiftLeft_eq]

/-- The place of a pattern's magnitude. -/
def place (bits : ℕ) : ℕ :=
  (splitFloat bits w).exponent * 2 ^ w.fractionBits + (splitFloat bits w).fraction

theorem exponent_lt (bits : ℕ) : (splitFloat bits w).exponent < 2 ^ w.exponentBits := by
  rw [splitFloat_eq]
  exact Nat.mod_lt _ (Nat.two_pow_pos _)

theorem fraction_lt (bits : ℕ) : (splitFloat bits w).fraction < 2 ^ w.fractionBits := by
  rw [splitFloat_eq]
  exact Nat.mod_lt _ (Nat.two_pow_pos _)

theorem place_div (bits : ℕ) :
    place w bits / 2 ^ w.fractionBits = (splitFloat bits w).exponent := by
  rw [place, Nat.mul_comm, Nat.mul_add_div (Nat.two_pow_pos _),
    Nat.div_eq_of_lt (fraction_lt w bits), Nat.add_zero]

theorem place_mod (bits : ℕ) :
    place w bits % 2 ^ w.fractionBits = (splitFloat bits w).fraction := by
  rw [place, Nat.mul_comm, Nat.mul_add_mod, Nat.mod_eq_of_lt (fraction_lt w bits)]

theorem place_eq (bits : ℕ) : place w bits = bits % 2 ^ (w.bits - 1) := by
  rw [place, splitFloat_eq, bits_eq, Nat.add_comm w.exponentBits, pow_add, Nat.mod_mul,
    Nat.mul_comm, Nat.add_comm]

/-- The fields and back. -/
theorem joinFloat_place (hbits : bits < 2 ^ w.bits) :
    joinFloat ⟨(splitFloat bits w).sign, place w bits / 2 ^ w.fractionBits,
      place w bits % 2 ^ w.fractionBits⟩ w = bits := by
  have hpow : 2 ^ w.bits = 2 * 2 ^ (w.bits - 1) := by
    rw [← pow_succ']
    congr 1
    cases w <;> rfl
  have hsign : (splitFloat bits w).sign.toNat = bits / 2 ^ (w.bits - 1) := by
    have hlt : bits / 2 ^ (w.bits - 1) < 2 := by
      rw [Nat.div_lt_iff_lt_mul (Nat.two_pow_pos _), ← hpow]
      exact hbits
    rw [splitFloat_eq]
    generalize bits / 2 ^ (w.bits - 1) = top at hlt
    interval_cases top <;> rfl
  rw [joinFloat_eq w]
  · simp only
    rw [place_div, place_mod, hsign, ← place, place_eq, Nat.mul_comm, Nat.div_add_mod]
  · simp only
    rw [place_div]
    exact exponent_lt w bits
  · exact Nat.mod_lt _ (Nat.two_pow_pos _)

end Fields

section Print

variable {m : ℕ} {q : ℤ}

/-- What an exact decimal is: its digits, some before the point, and its value. -/
structure Spells (d : List Char × List Char) (x : ℚ) : Prop where
  digits : ∀ c ∈ d.1 ++ d.2, c.isDigit = true
  whole : d.1 ≠ []
  value : (digitsValue (d.1 ++ d.2) : ℚ) * 10 ^ (-(d.2.length : ℤ)) = x

theorem isDigit_toDigits {n : ℕ} : ∀ c ∈ Nat.toDigits 10 n, c.isDigit = true := fun _ hc =>
  Nat.isDigit_of_mem_toDigits (by decide) (by decide) hc

theorem dropTrailingZeros_append (digits : List Char) :
    ∃ j, digits = dropTrailingZeros digits ++ List.replicate j '0' := by
  refine ⟨(digits.reverse.takeWhile (· = '0')).length, ?_⟩
  have hzeros : digits.reverse.takeWhile (· = '0') =
      List.replicate (digits.reverse.takeWhile (· = '0')).length '0' :=
    List.eq_replicate_of_mem fun c hc => by simpa using List.mem_takeWhile_imp hc
  have hsplit := List.takeWhile_append_dropWhile (p := fun c => decide (c = '0'))
    (l := digits.reverse)
  calc digits = digits.reverse.reverse := (List.reverse_reverse digits).symm
    _ = dropTrailingZeros digits ++ (digits.reverse.takeWhile (· = '0')).reverse := by
        rw [dropTrailingZeros, ← List.reverse_append, hsplit]
    _ = _ := by rw [hzeros, List.reverse_replicate, List.length_replicate]

theorem digitsValue_padStart (length : ℕ) (digits : List Char) :
    digitsValue (padStart length digits) = digitsValue digits := by
  rw [padStart, digitsValue_append, digitsValue_replicate_zero, Nat.zero_mul, Nat.zero_add]

theorem isDigit_padStart {length : ℕ} {digits : List Char}
    (h : ∀ c ∈ digits, c.isDigit = true) : ∀ c ∈ padStart length digits, c.isDigit = true := by
  intro c hc
  rcases List.mem_append.mp hc with hc | hc
  · rw [List.eq_of_mem_replicate hc]
    rfl
  · exact h c hc

theorem length_padStart (length : ℕ) (digits : List Char) :
    (padStart length digits).length = max length digits.length := by
  rw [padStart, List.length_append, List.length_replicate]
  omega

theorem exactDecimal_spells (m : ℕ) (q : ℤ) : Spells (exactDecimal m q) (m * 2 ^ q) := by
  rw [exactDecimal]
  by_cases hq : 0 ≤ q
  · rw [if_pos hq]
    obtain ⟨k, rfl⟩ := Int.eq_ofNat_of_zero_le hq
    refine ⟨?_, Nat.toDigits_ne_nil, ?_⟩
    · rw [List.append_nil]
      exact isDigit_toDigits
    · rw [List.append_nil, Assembler.digitsValue_toDigits, Int.toNat_natCast, Nat.shiftLeft_eq]
      simp
  · rw [if_neg hq]
    obtain ⟨k, hk⟩ := Int.eq_ofNat_of_zero_le (show 0 ≤ -q by omega)
    obtain rfl : q = -(k : ℤ) := by omega
    simp only [neg_neg, Int.toNat_natCast]
    have hall : ∀ c ∈ padStart (k + 1) (Nat.toDigits 10 (m * 5 ^ k)), c.isDigit = true :=
      isDigit_padStart isDigit_toDigits
    have hvalue : digitsValue (padStart (k + 1) (Nat.toDigits 10 (m * 5 ^ k))) = m * 5 ^ k := by
      rw [digitsValue_padStart, Assembler.digitsValue_toDigits]
    have hlen : k + 1 ≤ (padStart (k + 1) (Nat.toDigits 10 (m * 5 ^ k))).length := by
      rw [length_padStart]
      exact le_max_left _ _
    generalize padStart (k + 1) (Nat.toDigits 10 (m * 5 ^ k)) = digits at hall hvalue hlen
    obtain ⟨j, hj⟩ := dropTrailingZeros_append (digits.drop (digits.length - k))
    have hjlen : (dropTrailingZeros (digits.drop (digits.length - k))).length + j = k := by
      have hcount := congrArg List.length hj
      rw [List.length_append, List.length_replicate, List.length_drop] at hcount
      omega
    have hsplit : digits = digits.take (digits.length - k) ++
        dropTrailingZeros (digits.drop (digits.length - k)) ++ List.replicate j '0' := by
      rw [List.append_assoc, ← hj, List.take_append_drop]
    refine ⟨?_, ?_, ?_⟩
    · intro c hc
      apply hall
      rw [hsplit]
      exact List.mem_append_left _ hc
    · rw [← List.length_pos_iff, List.length_take]
      omega
    · rw [hsplit, digitsValue_append, digitsValue_replicate_zero, List.length_replicate,
        Nat.add_zero] at hvalue
      generalize digitsValue _ = v at hvalue ⊢
      generalize (dropTrailingZeros _).length = a at hjlen ⊢
      have hvalue' : (v : ℚ) * 10 ^ j = m * 5 ^ k := by exact_mod_cast hvalue
      have hten : (10 : ℚ) ^ k = 2 ^ k * 5 ^ k := by rw [← mul_pow]; norm_num
      have hfive : (5 : ℚ) ^ k ≠ 0 := by positivity
      rw [zpow_neg, zpow_neg, zpow_natCast, zpow_natCast, ← div_eq_mul_inv, ← div_eq_mul_inv,
        div_eq_div_iff (by positivity) (by positivity)]
      apply mul_right_cancel₀ hfive
      calc (v : ℚ) * 2 ^ k * 5 ^ k = v * 10 ^ j * 10 ^ a := by
            rw [mul_assoc, ← hten, mul_assoc, ← pow_add, Nat.add_comm, hjlen]
        _ = m * 10 ^ a * 5 ^ k := by rw [hvalue']; ring

variable {d : List Char × List Char} {x : ℚ}

theorem takeSign_signText (negative : Bool) {c : Char} (hc : c.isDigit = true)
    (rest : List Char) : takeSign (signText negative ++ c :: rest) = (negative, c :: rest) := by
  have hminus : c ≠ '-' := by rintro rfl; cases hc
  have hplus : c ≠ '+' := by rintro rfl; cases hc
  cases negative
  · simp [signText, takeSign, hminus, hplus]
  · rfl

theorem Spells.matchDecimal (h : Spells d x) (negative : Bool) :
    matchDecimal (signText negative ++ decimalText d) = some ⟨negative, d.1, d.2, none⟩ := by
  obtain ⟨whole, after⟩ := d
  have hwhole : ∀ c ∈ whole, c.isDigit = true := fun c hc => h.digits c (List.mem_append_left _ hc)
  have hafter : ∀ c ∈ after, c.isDigit = true := fun c hc => h.digits c (List.mem_append_right _ hc)
  obtain ⟨c, rest, rfl⟩ := List.exists_cons_of_ne_nil h.whole
  have hc := hwhole c List.mem_cons_self
  obtain ⟨tail, htail, hshape⟩ : ∃ tail, decimalText (c :: rest, after) = c :: (rest ++ tail) ∧
      (tail = [] ∧ after = [] ∨ tail = '.' :: after) := by
    rw [decimalText]
    by_cases hnil : after = []
    · exact ⟨[], by rw [if_pos hnil, List.append_nil], Or.inl ⟨rfl, hnil⟩⟩
    · exact ⟨'.' :: after, by rw [if_neg hnil]; rfl, Or.inr rfl⟩
  have htake : (c :: (rest ++ tail)).takeWhile Char.isDigit = c :: rest := by
    rw [← List.cons_append, List.takeWhile_append_of_pos hwhole]
    rcases hshape with ⟨rfl, -⟩ | rfl
    · simp
    · simp
  have hdrop : (c :: (rest ++ tail)).dropWhile Char.isDigit = tail := by
    rw [← List.cons_append, List.dropWhile_append_of_pos hwhole]
    rcases hshape with ⟨rfl, -⟩ | rfl
    · rfl
    · simp
  have hmatch : matchAfter tail = (after, []) := by
    rcases hshape with ⟨rfl, rfl⟩ | rfl
    · rfl
    · rw [matchAfter, List.takeWhile_eq_self_iff.mpr hafter, List.dropWhile_eq_nil_iff.mpr hafter]
  rw [Ieee754.matchDecimal, htail, takeSign_signText negative hc]
  simp only [htake, hdrop, hmatch, matchExponent, Option.map_some]

theorem Spells.decimalValue (h : Spells d x) (negative : Bool) :
    decimalValue (signText negative ++ decimalText d) = some (negative, x) := by
  have hne : d.1 ++ d.2 ≠ [] := fun heq => h.whole (List.append_eq_nil_iff.mp heq).1
  rw [Ieee754.decimalValue, h.matchDecimal, Option.bind_some]
  simp only [if_neg hne, DecimalMatch.value, DecimalMatch.written, zero_sub, h.value]

/-- The digits of an exact decimal are as many as its powers of two and five can make. -/
theorem length_exactDecimal {p e : ℕ} (hm : m < 2 ^ p) (hlow : -(e : ℤ) ≤ q) (hhigh : q ≤ e)
    (he : 0 < e) : ((exactDecimal m q).1 ++ (exactDecimal m q).2).length ≤ p + e + 1 := by
  rw [exactDecimal]
  by_cases hq : 0 ≤ q
  · rw [if_pos hq, List.append_nil, Nat.length_toDigits_le_iff (by decide) (Nat.succ_pos _),
      Nat.shiftLeft_eq]
    calc m * 2 ^ q.toNat < 2 ^ p * 2 ^ q.toNat := Nat.mul_lt_mul_of_pos_right hm
          (Nat.two_pow_pos _)
      _ = 2 ^ (p + q.toNat) := (pow_add 2 p q.toNat).symm
      _ ≤ 2 ^ (p + e + 1) := Nat.pow_le_pow_right two_pos (by omega)
      _ ≤ 10 ^ (p + e + 1) := Nat.pow_le_pow_left (by decide) _
  · rw [if_neg hq]
    simp only
    have hplaces : (-q).toNat ≤ e := by omega
    generalize (-q).toNat = places at hplaces
    have hprinted : (Nat.toDigits 10 (m * 5 ^ places)).length ≤ p + e + 1 := by
      rw [Nat.length_toDigits_le_iff (by decide) (Nat.succ_pos _)]
      calc m * 5 ^ places < 2 ^ p * 5 ^ places := Nat.mul_lt_mul_of_pos_right hm (by positivity)
        _ ≤ 10 ^ p * 10 ^ places := Nat.mul_le_mul (Nat.pow_le_pow_left (by decide) _)
            (Nat.pow_le_pow_left (by decide) _)
        _ = 10 ^ (p + places) := (pow_add 10 p places).symm
        _ ≤ 10 ^ (p + e + 1) := Nat.pow_le_pow_right (by decide) (by omega)
    have hpadded : (padStart (places + 1) (Nat.toDigits 10 (m * 5 ^ places))).length ≤
        p + e + 1 := by
      rw [length_padStart]
      exact max_le (by omega) hprinted
    generalize padStart (places + 1) (Nat.toDigits 10 (m * 5 ^ places)) = digits at hpadded
    obtain ⟨j, hj⟩ := dropTrailingZeros_append (digits.drop (digits.length - places))
    have hcount := congrArg List.length hj
    rw [List.length_append, List.length_drop] at hcount
    rw [List.length_append, List.length_take]
    omega

end Print

section Exact

variable (w : FloatWidth) {bits : ℕ}

theorem exactMagnitude_spells (bits : ℕ) :
    Spells (exactMagnitude bits w) (magnitude w (place w bits)) := by
  have hvalue : magnitude w (place w bits) =
      ((if (splitFloat bits w).exponent = 0 then (splitFloat bits w).fraction
        else (splitFloat bits w).fraction ||| (1 <<< w.fractionBits) : ℕ) : ℚ) *
        2 ^ ((max (splitFloat bits w).exponent 1 : ℕ) - (w.bias : ℤ) - w.fractionBits) := by
    rw [magnitude, place_div, place_mod]
    by_cases hexp : (splitFloat bits w).exponent = 0
    · rw [if_pos hexp, if_pos hexp, hexp]
      rfl
    · have hor : (splitFloat bits w).fraction ||| (1 <<< w.fractionBits) =
          2 ^ w.fractionBits + (splitFloat bits w).fraction := by
        rw [Nat.or_comm, ← Nat.shiftLeft_add_eq_or_of_lt (fraction_lt w bits), Nat.one_shiftLeft]
      rw [if_neg hexp, if_neg hexp, hor, max_eq_left (Nat.one_le_iff_ne_zero.mpr hexp)]
  rw [hvalue]
  exact exactDecimal_spells _ _

theorem length_exactMagnitude (hfinite : (splitFloat bits w).exponent < w.topExponent) :
    ((exactMagnitude bits w).1 ++ (exactMagnitude bits w).2).length ≤ 1200 := by
  have hfraction := fraction_lt w bits
  have hm : (if (splitFloat bits w).exponent = 0 then (splitFloat bits w).fraction
      else (splitFloat bits w).fraction ||| (1 <<< w.fractionBits)) < 2 ^ 53 := by
    have hp : w.fractionBits + 1 ≤ 53 := by cases w <;> decide
    refine lt_of_lt_of_le ?_ (Nat.pow_le_pow_right two_pos hp)
    split
    · exact hfraction.trans (Nat.pow_lt_pow_right one_lt_two (Nat.lt_succ_self _))
    · rw [Nat.one_shiftLeft]
      exact Nat.or_lt_two_pow (hfraction.trans (Nat.pow_lt_pow_right one_lt_two
        (Nat.lt_succ_self _))) (Nat.pow_lt_pow_right one_lt_two (Nat.lt_succ_self _))
  have hbias : (w.bias : ℤ) + w.fractionBits ≤ 1100 := by cases w <;> decide
  have htop : (w.topExponent : ℤ) ≤ 1100 + w.bias := by cases w <;> decide
  refine (length_exactDecimal (e := 1100) hm ?_ ?_ (by decide)).trans (by decide)
  · push_cast
    omega
  · push_cast
    omega

theorem classify_of_finite (hfinite : (splitFloat bits w).exponent < w.topExponent) :
    classify bits w = .zero ∨ classify bits w = .subnormal ∨ classify bits w = .normal := by
  simp only [classify, if_pos hfinite]
  split
  · split
    · exact Or.inl rfl
    · exact Or.inr (Or.inl rfl)
  · exact Or.inr (Or.inr rfl)

theorem exactValue_of_finite (js : NumberText)
    (hfinite : (splitFloat bits w).exponent < w.topExponent) :
    exactValue js bits w =
      signText (splitFloat bits w).sign ++ decimalText (exactMagnitude bits w) := by
  rw [exactValue]
  rcases classify_of_finite w hfinite with h | h | h
  · rw [h]
  · rw [h]
  · rw [h]

theorem place_lt (hfinite : (splitFloat bits w).exponent < w.topExponent) :
    place w bits < infinityPlace w := by
  calc place w bits < (splitFloat bits w).exponent * 2 ^ w.fractionBits + 2 ^ w.fractionBits :=
        Nat.add_lt_add_left (fraction_lt w bits) _
    _ = ((splitFloat bits w).exponent + 1) * 2 ^ w.fractionBits := (Nat.succ_mul _ _).symm
    _ ≤ infinityPlace w := Nat.mul_le_mul_right _ hfinite

/-- What a finite pattern's place parses as, for a number it is nearest to. -/
theorem nearestParsed_place {x : ℚ} (hbits : bits < 2 ^ w.bits)
    (hfinite : (splitFloat bits w).exponent < w.topExponent)
    (hzero : place w bits = 0 → x = 0) :
    nearestParsed w (splitFloat bits w).sign x (place w bits) =
      .pattern bits (decide (x = magnitude w (place w bits))) := by
  rw [nearestParsed, if_neg (fun h => h.1 (hzero h.2)),
    if_neg (Nat.not_le_of_lt (place_lt w hfinite)), joinFloat_place w hbits]

/-- The exact decimal of a finite pattern reads back as it, exactly. -/
theorem decimalToFloat_exactValue (js : NumberText) (hbits : bits < 2 ^ w.bits)
    (hfinite : (splitFloat bits w).exponent < w.topExponent) :
    decimalToFloat (exactValue js bits w) w = some (.pattern bits true) := by
  have hlen : (exactValue js bits w).length ≤ maxValueText := by
    have hcount := length_exactMagnitude w hfinite
    have hsign : (signText (splitFloat bits w).sign).length ≤ 1 := by
      cases (splitFloat bits w).sign
      · exact Nat.zero_le _
      · exact le_rfl
    have htext : (decimalText (exactMagnitude bits w)).length ≤
        ((exactMagnitude bits w).1 ++ (exactMagnitude bits w).2).length + 1 := by
      rw [decimalText, List.length_append]
      split
      · omega
      · rw [List.length_append, List.length_cons]
        omega
    have hmax : maxValueText = 2000 := rfl
    rw [exactValue_of_finite w js hfinite, List.length_append]
    omega
  have hvalue := (exactMagnitude_spells w bits).decimalValue (splitFloat bits w).sign
  rw [← exactValue_of_finite w js hfinite] at hvalue
  obtain ⟨n, hnearest, hparsed⟩ := decimalToFloat_nearest w hlen hvalue
  obtain rfl : n = place w bits :=
    hnearest.unique (magnitude_strictMono w) (nearest_self (magnitude_strictMono w) _)
  have hzero : place w bits = 0 → magnitude w (place w bits) = 0 := fun h => by
    rw [h, magnitude_zero]
  rw [hparsed, nearestParsed_place w hbits hfinite hzero, decide_eq_true rfl]

end Exact

end Ieee754

end Playground
