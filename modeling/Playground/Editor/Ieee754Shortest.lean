/-
The decimal printed for a 32-bit pattern reads back as it, and no decimal of fewer digits does:
a decimal that reads back has one of the two either side of the value between it and the value.
-/
import Playground.Editor.Ieee754Exact

namespace Playground

namespace Ieee754

open F64 (takeSign digitsValue)
open FloatGrid

section HasDigits

variable {y : ℚ} {d d' : ℕ}

/-- A decimal of a number of significant digits. -/
def HasDigits (y : ℚ) (d : ℕ) : Prop :=
  ∃ c : ℕ, c < 10 ^ d ∧ ∃ k : ℤ, y = c * 10 ^ k

theorem HasDigits.mono (h : HasDigits y d) (hle : d ≤ d') : HasDigits y d' := by
  obtain ⟨c, hc, hk⟩ := h
  exact ⟨c, hc.trans_le (Nat.pow_le_pow_right (by decide) hle), hk⟩

/-- The power of ten past the digits is a decimal of one. -/
theorem hasDigits_of_le {c : ℕ} (hd : 0 < d) (hc : c ≤ 10 ^ d) (k : ℤ) :
    HasDigits (c * 10 ^ k) d := by
  rcases hc.lt_or_eq with hc | rfl
  · exact ⟨c, hc, k, rfl⟩
  · obtain ⟨e, rfl⟩ := Nat.exists_eq_succ_of_ne_zero hd.ne'
    refine ⟨10 ^ e, Nat.pow_lt_pow_right (by decide) (Nat.lt_succ_self e), k + 1, ?_⟩
    rw [zpow_add_one₀ (by norm_num)]
    push_cast
    rw [pow_succ]
    ring

/-- No decimal of as many digits lies between two that follow one another. -/
theorem HasDigits.not_between {b : ℕ} {p : ℤ} (h : HasDigits y d) (hb : 10 ^ d ≤ 10 * b) :
    y ≤ b * 10 ^ p ∨ (b + 1) * 10 ^ p ≤ y := by
  obtain ⟨c, hc, k, rfl⟩ := h
  have hpow : (0 : ℚ) < 10 ^ p := zpow_pos (by norm_num) p
  by_cases hk : p ≤ k
  · obtain ⟨j, hj⟩ := Int.eq_ofNat_of_zero_le (show 0 ≤ k - p by omega)
    obtain rfl : k = p + j := by omega
    have hvalue : (c : ℚ) * 10 ^ (p + (j : ℤ)) = ((c * 10 ^ j : ℕ) : ℚ) * 10 ^ p := by
      rw [zpow_add₀ (by norm_num), zpow_natCast]
      push_cast
      ring
    rw [hvalue]
    rcases Nat.lt_or_ge b (c * 10 ^ j) with hlt | hge
    · right
      exact mul_le_mul_of_nonneg_right (by exact_mod_cast hlt) hpow.le
    · left
      exact mul_le_mul_of_nonneg_right (by exact_mod_cast hge) hpow.le
  · left
    have hc' : (c : ℚ) ≤ 10 * b := by exact_mod_cast hc.le.trans hb
    calc (c : ℚ) * 10 ^ k ≤ 10 * b * 10 ^ (p - 1) :=
          mul_le_mul hc' (zpow_le_zpow_right₀ (by norm_num) (by omega))
            (zpow_nonneg (by norm_num) k) (by positivity)
      _ = b * (10 ^ (p - 1) * 10) := by ring
      _ = b * 10 ^ p := by rw [← zpow_add_one₀ (by norm_num), sub_add_cancel]

end HasDigits

section Leading

variable {exact : List Char × List Char} {x : ℚ} {d : ℕ}

theorem dropTrailingZeros_eq_nil {digits : List Char} (h : ∀ c ∈ digits, c.isDigit = true) :
    dropTrailingZeros digits = [] ↔ digitsValue digits = 0 := by
  obtain ⟨j, hj⟩ := dropTrailingZeros_append digits
  constructor
  · intro hnil
    rw [hnil, List.nil_append] at hj
    rw [hj, digitsValue_replicate_zero]
  · intro hzero
    by_contra hne
    have hlast : ∃ front c, dropTrailingZeros digits = front ++ [c] ∧ c ≠ '0' := by
      have hrev : digits.reverse.dropWhile (· = '0') ≠ [] := fun heq =>
        hne (by rw [dropTrailingZeros, heq, List.reverse_nil])
      obtain ⟨c, rest, heq⟩ := List.exists_cons_of_ne_nil hrev
      refine ⟨rest.reverse, c, by rw [dropTrailingZeros, heq, List.reverse_cons], ?_⟩
      have hhead := List.head?_dropWhile_not (fun c : Char => decide (c = '0')) digits.reverse
      rw [heq] at hhead
      simpa using hhead
    obtain ⟨front, c, hfront, hc⟩ := hlast
    have hmem : c ∈ digits := by
      rw [hj, hfront]
      simp
    have hdigit := toNat_of_isDigit (h c hmem)
    have hnot : c.toNat ≠ 48 := fun heq => hc (Char.toNat_inj.mp heq)
    rw [hj, hfront, digitsValue_append, digitsValue_replicate_zero, Nat.add_zero,
      digitsValue_append, Nat.mul_eq_zero] at hzero
    have hone : digitsValue [c] = c.toNat - 48 := by simp [digitsValue]
    have hpow : 0 < 10 ^ (List.replicate j '0').length := Nat.pow_pos (by decide)
    omega

/-- What the first digits of a positive decimal are: the number below it of that many digits, and
whether it is the decimal itself. -/
structure Leading (x : ℚ) (d : ℕ) (leading : ℕ × ℤ × List Char) : Prop where
  low : 10 ^ d ≤ 10 * leading.1
  high : leading.1 < 10 ^ d
  le : (leading.1 : ℚ) * 10 ^ leading.2.1 ≤ x
  lt : x < (leading.1 + 1) * 10 ^ leading.2.1
  exact : leading.2.2 = [] → x = leading.1 * 10 ^ leading.2.1

theorem length_padEnd (length : ℕ) (digits : List Char) :
    (padEnd length digits).length = max length digits.length := by
  rw [padEnd, List.length_append, List.length_replicate]
  omega

/-- The first digits, padded, and those that follow are the number at a power of ten. -/
theorem digitsValue_split (digits : List Char) (d : ℕ) :
    digitsValue (padEnd d (digits.take d)) * 10 ^ (digits.length - d) +
        digitsValue (digits.drop d) =
      digitsValue digits * 10 ^ (d - digits.length) := by
  rcases Nat.le_total d digits.length with hle | hle
  · have hpad : padEnd d (digits.take d) = digits.take d := by
      rw [padEnd, List.length_take, Nat.min_eq_left hle, Nat.sub_self, List.replicate_zero,
        List.append_nil]
    have hsplit : digitsValue (digits.take d ++ digits.drop d) =
        digitsValue (digits.take d) * 10 ^ (digits.drop d).length + digitsValue (digits.drop d) :=
      digitsValue_append _ _
    rw [List.take_append_drop, List.length_drop] at hsplit
    rw [hpad, Nat.sub_eq_zero_of_le hle, pow_zero, Nat.mul_one, hsplit]
  · have htake : digits.take d = digits := List.take_of_length_le hle
    have hdrop : digits.drop d = [] := List.drop_eq_nil_of_le hle
    rw [htake, hdrop, padEnd, digitsValue_append, digitsValue_replicate_zero,
      List.length_replicate, Nat.sub_eq_zero_of_le hle, pow_zero, Nat.mul_one, Nat.add_zero]
    rfl

theorem leadingDigits_spec (h : Spells exact x) (hx : 0 < x) (hd : 0 < d) :
    Leading x d (leadingDigits exact d) := by
  obtain ⟨whole, after⟩ := exact
  have hdigits : ∀ c ∈ whole ++ after, c.isDigit = true := h.digits
  have hvalue : (digitsValue (whole ++ after) : ℚ) * 10 ^ (-(after.length : ℤ)) = x := h.value
  -- the digits without the zeros in front, the first of them no zero
  generalize hlead : ((whole ++ after).takeWhile (· = '0')).length = lead
  have hdropped : (whole ++ after).drop lead = (whole ++ after).dropWhile (· = '0') := by
    have hparts := List.takeWhile_append_dropWhile (p := fun c : Char => decide (c = '0'))
      (l := whole ++ after)
    calc (whole ++ after).drop lead
        = ((whole ++ after).takeWhile (· = '0') ++ (whole ++ after).dropWhile (· = '0')).drop
            lead := by rw [hparts]
      _ = (whole ++ after).dropWhile (· = '0') := by rw [← hlead, List.drop_left]
  have hlength : lead + ((whole ++ after).drop lead).length = whole.length + after.length := by
    have hle : lead ≤ (whole ++ after).length := by
      rw [← hlead]
      exact (List.takeWhile_sublist _).length_le
    rw [List.length_drop]
    rw [List.length_append] at hle ⊢
    omega
  have hsame : digitsValue ((whole ++ after).drop lead) = digitsValue (whole ++ after) := by
    rw [hdropped, digitsValue_dropZeros]
  have hrest : ∀ c ∈ (whole ++ after).drop lead, c.isDigit = true := fun c hc =>
    hdigits c (List.mem_of_mem_drop hc)
  have hleading : leadingDigits (whole, after) d =
      (digitsValue (padEnd d (((whole ++ after).drop lead).take d)),
        (whole.length : ℤ) - lead - d,
        dropTrailingZeros (((whole ++ after).drop lead).drop d)) := by
    simp only [leadingDigits, hlead, List.drop_drop]
  obtain ⟨first, tail, hfirst, hnonzero⟩ : ∃ first tail,
      (whole ++ after).drop lead = first :: tail ∧ first ≠ '0' := by
    cases hcons : (whole ++ after).dropWhile (· = '0') with
    | nil =>
        exfalso
        rw [hdropped, hcons] at hsame
        have hzero : digitsValue (whole ++ after) = 0 := hsame.symm
        rw [hzero, Nat.cast_zero, zero_mul] at hvalue
        exact hx.ne hvalue
    | cons first tail =>
        refine ⟨first, tail, hdropped.trans hcons, ?_⟩
        have hhead := List.head?_dropWhile_not (fun c : Char => decide (c = '0')) (whole ++ after)
        rw [hcons] at hhead
        simpa using hhead
  generalize hD : (whole ++ after).drop lead = D at hleading hlength hsame hrest hfirst
  have hsplit := digitsValue_split D d
  have hpadded : padEnd d (D.take d) = first :: (padEnd d (D.take d)).tail := by
    obtain ⟨e, rfl⟩ := Nat.exists_eq_succ_of_ne_zero hd.ne'
    rw [hfirst]
    rfl
  have hpadDigits : ∀ c ∈ padEnd d (D.take d), c.isDigit = true := by
    intro c hc
    rw [padEnd, List.mem_append] at hc
    rcases hc with hc | hc
    · exact hrest c (List.mem_of_mem_take hc)
    · rw [List.eq_of_mem_replicate hc]
      rfl
  have hpadLength : (padEnd d (D.take d)).length = d := by
    rw [length_padEnd, List.length_take]
    omega
  generalize hP : padEnd d (D.take d) = P at hleading hsplit hpadded hpadDigits hpadLength
  have hfollow : digitsValue (D.drop d) < 10 ^ (D.length - d) := by
    have hlt := digitsValue_lt fun c hc => hrest c (List.mem_of_mem_drop (i := d) hc)
    rwa [List.length_drop] at hlt
  have hnil : dropTrailingZeros (D.drop d) = [] → digitsValue (D.drop d) = 0 :=
    (dropTrailingZeros_eq_nil fun c hc => hrest c (List.mem_of_mem_drop hc)).mp
  generalize digitsValue (D.drop d) = r at hsplit hfollow hnil
  -- the digits that follow count for r of the last place times t
  have hpower : (10 : ℚ) ^ ((whole.length : ℤ) - lead - d) =
      (10 ^ (D.length - d) : ℕ) * 10 ^ (-((d - D.length : ℕ) : ℤ) - after.length) := by
    rw [Nat.cast_pow, Nat.cast_ofNat, ← zpow_natCast, ← zpow_add₀ (by norm_num)]
    congr 1
    omega
  have ht : (0 : ℚ) < 10 ^ (-((d - D.length : ℕ) : ℤ) - after.length) :=
    zpow_pos (by norm_num) _
  have hsum : x = digitsValue P * 10 ^ ((whole.length : ℤ) - lead - d) +
      r * 10 ^ (-((d - D.length : ℕ) : ℤ) - after.length) := by
    have hcast : ((digitsValue P : ℚ) * (10 ^ (D.length - d) : ℕ) + r) =
        digitsValue (whole ++ after) * (10 ^ (d - D.length) : ℕ) := by
      rw [← hsame]
      exact_mod_cast hsplit
    have hback : ((10 ^ (d - D.length) : ℕ) : ℚ) *
        10 ^ (-((d - D.length : ℕ) : ℤ) - after.length) = 10 ^ (-(after.length : ℤ)) := by
      rw [Nat.cast_pow, Nat.cast_ofNat, ← zpow_natCast, ← zpow_add₀ (by norm_num)]
      congr 1
      omega
    calc x = digitsValue (whole ++ after) * 10 ^ (-(after.length : ℤ)) := hvalue.symm
      _ = digitsValue (whole ++ after) * (10 ^ (d - D.length) : ℕ) *
            10 ^ (-((d - D.length : ℕ) : ℤ) - after.length) := by rw [mul_assoc, hback]
      _ = (digitsValue P * (10 ^ (D.length - d) : ℕ) + r) *
            10 ^ (-((d - D.length : ℕ) : ℤ) - after.length) := by rw [hcast]
      _ = _ := by rw [hpower]; ring
  have hr : (r : ℚ) * 10 ^ (-((d - D.length : ℕ) : ℤ) - after.length) <
      10 ^ ((whole.length : ℤ) - lead - d) := by
    rw [hpower]
    exact mul_lt_mul_of_pos_right (by exact_mod_cast hfollow) ht
  have hr0 : 0 ≤ (r : ℚ) * 10 ^ (-((d - D.length : ℕ) : ℤ) - after.length) := by positivity
  rw [hleading]
  refine ⟨?_, ?_, ?_, ?_, ?_⟩
  · have hle := le_digitsValue (hpadDigits first (by rw [hpadded]; exact List.mem_cons_self))
      hnonzero P.tail
    have htail : P.tail.length + 1 = d := by
      rw [List.length_tail, hpadLength]
      omega
    show 10 ^ d ≤ 10 * digitsValue P
    rw [hpadded, ← htail, pow_succ]
    omega
  · show digitsValue P < 10 ^ d
    rw [← hpadLength]
    exact digitsValue_lt hpadDigits
  · simp only
    linarith
  · simp only
    rw [add_mul, one_mul]
    linarith
  · intro hempty
    have hzero : r = 0 := hnil hempty
    rw [hzero, Nat.cast_zero, zero_mul, add_zero] at hsum
    exact hsum

/-- Either decimal beside the value: its power of ten, and one of the two numbers. -/
theorem mem_bracketingDecimals {c : ℕ} {k : ℤ} (h : (c, k) ∈ bracketingDecimals exact d) :
    k = (leadingDigits exact d).2.1 ∧
      (c = (leadingDigits exact d).1 ∨ c = (leadingDigits exact d).1 + 1) := by
  unfold bracketingDecimals at h
  generalize leadingDigits exact d = leading at h ⊢
  obtain ⟨below, power, rest⟩ := leading
  simp only at h ⊢
  split at h
  · simp only [List.mem_singleton, Prod.mk.injEq] at h
    exact ⟨h.2, .inl h.1⟩
  · split at h
    · simp only [List.mem_cons, List.not_mem_nil, or_false, Prod.mk.injEq] at h
      rcases h with ⟨hc, hk⟩ | ⟨hc, hk⟩
      · exact ⟨hk, .inr hc⟩
      · exact ⟨hk, .inl hc⟩
    · simp only [List.mem_cons, List.not_mem_nil, or_false, Prod.mk.injEq] at h
      rcases h with ⟨hc, hk⟩ | ⟨hc, hk⟩
      · exact ⟨hk, .inl hc⟩
      · exact ⟨hk, .inr hc⟩

theorem below_mem_bracketingDecimals :
    ((leadingDigits exact d).1, (leadingDigits exact d).2.1) ∈ bracketingDecimals exact d := by
  unfold bracketingDecimals
  generalize leadingDigits exact d = leading
  obtain ⟨below, power, rest⟩ := leading
  simp only
  split
  · simp
  · split <;> simp

theorem above_mem_bracketingDecimals (h : (leadingDigits exact d).2.2 ≠ []) :
    ((leadingDigits exact d).1 + 1, (leadingDigits exact d).2.1) ∈ bracketingDecimals exact d := by
  unfold bracketingDecimals
  generalize leadingDigits exact d = leading at h ⊢
  obtain ⟨below, power, rest⟩ := leading
  simp only at h ⊢
  rw [if_neg h]
  split <;> simp

/-- When a decimal of so many digits is nearest to the value's place, so is one beside it. -/
theorem exists_bracketing_nearest {f : ℕ → ℚ} (hf : StrictMono f) {n : ℕ} {y : ℚ}
    (hspec : Leading (f n) d (leadingDigits exact d)) (hy : HasDigits y d)
    (hnear : Nearest f y n) :
    ∃ c k, (c, k) ∈ bracketingDecimals exact d ∧ Nearest f (c * 10 ^ k) n := by
  rcases hy.not_between (p := (leadingDigits exact d).2.1) hspec.low with hle | hge
  · exact ⟨_, _, below_mem_bracketingDecimals, hnear.between hf (.inl ⟨hle, hspec.le⟩)⟩
  · by_cases hrest : (leadingDigits exact d).2.2 = []
    · refine ⟨_, _, below_mem_bracketingDecimals, ?_⟩
      rw [← hspec.exact hrest]
      exact nearest_self hf n
    · refine ⟨_, _, above_mem_bracketingDecimals hrest, hnear.between hf (.inr ⟨?_, ?_⟩)⟩
      · push_cast
        exact hspec.lt.le
      · push_cast
        exact hge

/-- The sizes of the decimals beside a value of either format. -/
theorem Leading.power_bounds (hspec : Leading x d (leadingDigits exact d)) (hd : 0 < d)
    (hd9 : d ≤ 9) (hlow : (10 : ℚ) ^ (-45 : ℤ) < x) (hhigh : x < 10 ^ (39 : ℤ)) :
    -60 ≤ (leadingDigits exact d).2.1 ∧ (leadingDigits exact d).2.1 ≤ 60 ∧
      0 < (leadingDigits exact d).1 ∧ (leadingDigits exact d).1 + 1 ≤ 10 ^ 9 := by
  have hpow : (0 : ℚ) < 10 ^ (leadingDigits exact d).2.1 := zpow_pos (by norm_num) _
  have hd10 : 10 ≤ 10 ^ d := by
    calc 10 = 10 ^ 1 := (pow_one 10).symm
      _ ≤ 10 ^ d := Nat.pow_le_pow_right (by decide) hd
  have hpos : 0 < (leadingDigits exact d).1 := by
    have hle := hspec.low
    omega
  have hle9 : (leadingDigits exact d).1 + 1 ≤ 10 ^ 9 :=
    hspec.high.trans_le (Nat.pow_le_pow_right (by decide) hd9)
  refine ⟨?_, ?_, hpos, hle9⟩
  · have hlt : (10 : ℚ) ^ (-45 : ℤ) < 10 ^ (9 + (leadingDigits exact d).2.1) := by
      calc (10 : ℚ) ^ (-45 : ℤ) < x := hlow
        _ < ((leadingDigits exact d).1 + 1) * 10 ^ (leadingDigits exact d).2.1 := hspec.lt
        _ ≤ 10 ^ (9 : ℤ) * 10 ^ (leadingDigits exact d).2.1 :=
            mul_le_mul_of_nonneg_right (by exact_mod_cast hle9) hpow.le
        _ = 10 ^ (9 + (leadingDigits exact d).2.1) := (zpow_add₀ (by norm_num) _ _).symm
    have hexp := (zpow_lt_zpow_iff_right₀ (by norm_num)).mp hlt
    omega
  · have hlt : (10 : ℚ) ^ (leadingDigits exact d).2.1 < 10 ^ (39 : ℤ) := by
      calc (10 : ℚ) ^ (leadingDigits exact d).2.1
          = 1 * 10 ^ (leadingDigits exact d).2.1 := (one_mul _).symm
        _ ≤ (leadingDigits exact d).1 * 10 ^ (leadingDigits exact d).2.1 :=
            mul_le_mul_of_nonneg_right (by exact_mod_cast hpos) hpow.le
        _ ≤ x := hspec.le
        _ < 10 ^ (39 : ℤ) := hhigh
    have hexp := (zpow_lt_zpow_iff_right₀ (by norm_num)).mp hlt
    omega

end Leading

section ReadsBack

variable (w : FloatWidth) {bits n : ℕ} {x : ℚ} {negative : Bool}

/-- A pattern's place, from its fields. -/
theorem place_joinFloat (hn : n < infinityPlace w) (negative : Bool) :
    place w (joinFloat ⟨negative, n / 2 ^ w.fractionBits, n % 2 ^ w.fractionBits⟩ w) = n := by
  have hexp : n / 2 ^ w.fractionBits < 2 ^ w.exponentBits := by
    have hdiv : n / 2 ^ w.fractionBits < w.topExponent :=
      (Nat.div_lt_iff_lt_mul (Nat.two_pow_pos _)).mpr hn
    rw [topExponent_eq] at hdiv
    exact hdiv.trans_le (Nat.sub_le _ _)
  have hmod : n % 2 ^ w.fractionBits < 2 ^ w.fractionBits := Nat.mod_lt _ (Nat.two_pow_pos _)
  have hjoin : joinFloat ⟨negative, n / 2 ^ w.fractionBits, n % 2 ^ w.fractionBits⟩ w =
      negative.toNat * 2 ^ (w.bits - 1) +
        (n / 2 ^ w.fractionBits * 2 ^ w.fractionBits + n % 2 ^ w.fractionBits) :=
    joinFloat_eq w hexp hmod
  have hwhole : n / 2 ^ w.fractionBits * 2 ^ w.fractionBits + n % 2 ^ w.fractionBits = n := by
    rw [Nat.mul_comm, Nat.div_add_mod]
  have hlt : n < 2 ^ (w.bits - 1) := by
    rw [bits_eq, pow_add]
    exact (Nat.div_lt_iff_lt_mul (Nat.two_pow_pos _)).mp hexp
  rw [place_eq, hjoin]
  simp only [hwhole]
  rw [Nat.add_comm, Nat.add_mul_mod_self_right, Nat.mod_eq_of_lt hlt]

/-- A text that parses as a finite pattern is nearest to the pattern's place. -/
theorem place_of_nearestParsed {exact : Bool}
    (h : nearestParsed w negative x n = .pattern bits exact) : place w bits = n := by
  unfold nearestParsed at h
  split at h
  · cases h
  · split at h
    · cases h
    · next hlt =>
        simp only [Parsed.pattern.injEq] at h
        rw [← h.1]
        exact place_joinFloat w (not_le.mp hlt) negative

/-- The test a printed text has to pass. -/
def readsBack (bits : ℕ) (text : List Char) : Bool :=
  match decimalToFloat text .w32 with
  | some (.pattern back _) => back == bits
  | _ => false

/-- A finite text reads back just when the value's place is nearest to it. -/
theorem readsBack_iff {text : List Char} (hlen : text.length ≤ maxValueText)
    (hvalue : decimalValue text = some ((splitFloat bits .w32).sign, x))
    (hbits : bits < 2 ^ 32) (hfinite : (splitFloat bits .w32).exponent < FloatWidth.w32.topExponent)
    (hnonzero : place .w32 bits ≠ 0) :
    readsBack bits text = true ↔ Nearest (magnitude .w32) x (place .w32 bits) := by
  obtain ⟨n, hnear, hparsed⟩ := decimalToFloat_nearest FloatWidth.w32 hlen hvalue
  rw [readsBack, hparsed]
  constructor
  · intro h
    split at h
    · next back exact heq =>
        have hback : back = bits := by simpa using h
        rw [Option.some.injEq] at heq
        have hplace := place_of_nearestParsed FloatWidth.w32 heq
        rw [← hback, hplace]
        exact hnear
    · cases h
  · intro hplace
    have hn : n = place .w32 bits := hnear.unique (magnitude_strictMono _) hplace
    rw [hn, nearestParsed_place FloatWidth.w32 hbits hfinite fun hzero => absurd hzero hnonzero]
    simp

end ReadsBack

section Printed

/-- The runtime's printing of a decimal of up to 9 digits at a 32-bit float's powers of ten:
text that parses as that decimal, of no great length. -/
structure PrintsDecimals (js : NumberText) : Prop where
  length : ∀ negative c k, 0 < c → c ≤ 10 ^ 9 → -60 ≤ k → k ≤ 60 →
    (js.decimal negative c k).length ≤ maxValueText
  value : ∀ negative (c : ℕ) (k : ℤ), 0 < c → c ≤ 10 ^ 9 → -60 ≤ k → k ≤ 60 →
    decimalValue (js.decimal negative c k) = some (negative, (c : ℚ) * 10 ^ k)

variable {js : NumberText} {bits : ℕ}

/-- The decimals tried, fewest digits first. -/
def candidates (exact : List Char × List Char) : List (ℕ × ℤ) :=
  (List.range 8).flatMap fun digits => bracketingDecimals exact (digits + 1)

/-- The first candidate that reads back has no more digits than any other that does. -/
theorem find_candidate {exact : List Char × List Char} {print : ℕ × ℤ → List Char}
    {p : List Char → Bool} {text : List Char}
    (h : ((candidates exact).map print).find? p = some text) :
    ∃ digits c k, digits < 8 ∧ (c, k) ∈ bracketingDecimals exact (digits + 1) ∧
      text = print (c, k) ∧ p text = true ∧
      ∀ digits' < digits, ∀ decimal ∈ bracketingDecimals exact (digits' + 1),
        p (print decimal) = false := by
  rw [List.find?_map, candidates, List.find?_flatMap, Option.map_eq_some_iff] at h
  obtain ⟨⟨c, k⟩, hfind, rfl⟩ := h
  obtain ⟨earlier, digits, later, hrange, hfound, hearlier⟩ := List.findSome?_eq_some_iff.mp hfind
  have hlength : earlier.length = digits := by
    have hget : (List.range 8)[earlier.length]? = some digits := by
      rw [hrange, List.getElem?_append_right le_rfl]
      simp
    obtain ⟨hlt, heq⟩ := List.getElem?_eq_some_iff.mp hget
    rwa [List.getElem_range] at heq
  have hdigits : digits ∈ List.range 8 := by
    rw [hrange]
    simp
  have hp := List.find?_some hfound
  refine ⟨digits, c, k, List.mem_range.mp hdigits, List.mem_of_find?_eq_some hfound, rfl, hp, ?_⟩
  intro digits' hlt decimal hdecimal
  have hmem : digits' ∈ earlier := by
    have hget : earlier[digits']? = (List.range 8)[digits']? := by
      rw [hrange, List.getElem?_append_left (by omega)]
    rw [List.getElem?_range (by rw [List.mem_range] at hdigits; omega)] at hget
    exact List.mem_of_getElem? hget
  have hnone := List.find?_eq_none.mp (hearlier digits' hmem) decimal hdecimal
  simpa using hnone

theorem formatFloatValue_finite (hnonzero : place .w32 bits ≠ 0)
    (hfinite : (splitFloat bits .w32).exponent < FloatWidth.w32.topExponent) :
    formatFloatValue js bits .w32 =
      match ((candidates (exactMagnitude bits .w32)).map fun decimal =>
        js.decimal (splitFloat bits .w32).sign decimal.1 decimal.2).find? (readsBack bits) with
      | some text => text
      | none => js.decimal (splitFloat bits .w32).sign (toPrecision9 (exactMagnitude bits .w32)).1
          (toPrecision9 (exactMagnitude bits .w32)).2 := by
  have hclass : classify bits .w32 = .subnormal ∨ classify bits .w32 = .normal := by
    rcases classify_of_finite FloatWidth.w32 hfinite with h | h | h
    · exfalso
      apply hnonzero
      unfold classify at h
      simp only at h
      split at h
      · next hexp =>
          split at h
          · next hfraction => rw [place, hexp, hfraction, Nat.zero_mul]
          · cases h
      · cases h
    · exact .inl h
    · exact .inr h
  unfold formatFloatValue
  rcases hclass with h | h
  · rw [h]
    rfl
  · rw [h]
    rfl

/-- Half of the smallest float is far above the powers of ten a 32-bit float has, and the
largest is below. -/
theorem magnitude_bounds {n : ℕ} (hpos : n ≠ 0) (hlt : n < infinityPlace .w32) :
    (10 : ℚ) ^ (-45 : ℤ) < magnitude .w32 n ∧ magnitude .w32 n < 10 ^ (39 : ℤ) := by
  have hmono := magnitude_strictMono FloatWidth.w32
  have htop : FloatWidth.w32.topExponent = 255 := by decide
  have hbias : FloatWidth.w32.bias = 127 := rfl
  constructor
  · have hone : magnitude .w32 1 = unit .w32 := by
      rw [magnitude_eq]
      norm_num [mag, FloatWidth.fractionBits, FloatWidth.layout]
    calc (10 : ℚ) ^ (-45 : ℤ) < unit .w32 := by
          norm_num [unit, FloatWidth.bias, FloatWidth.fractionBits, FloatWidth.layout]
      _ = magnitude .w32 1 := hone.symm
      _ ≤ magnitude .w32 n := hmono.monotone (Nat.one_le_iff_ne_zero.mpr hpos)
  · calc magnitude .w32 n < magnitude .w32 (infinityPlace .w32) := hmono hlt
      _ = 2 ^ (FloatWidth.w32.topExponent - FloatWidth.w32.bias : ℤ) :=
          magnitude_infinityPlace FloatWidth.w32
      _ < 10 ^ (39 : ℤ) := by
          rw [htop, hbias]
          norm_num

/-- Nine digits always tell a 32-bit float from its neighbours. -/
theorem nearest_toPrecision9 {exact : List Char × List Char} {n : ℕ}
    (hspec : Leading (magnitude .w32 n) 9 (leadingDigits exact 9)) :
    Nearest (magnitude .w32) ((toPrecision9 exact).1 * 10 ^ (toPrecision9 exact).2) n := by
  have hpow : (0 : ℚ) < 10 ^ (leadingDigits exact 9).2.1 := zpow_pos (by norm_num) _
  obtain ⟨hlow, -, hle, hlt, -⟩ := hspec
  -- the decimal is within one of its last place of the value
  have hclose : |((toPrecision9 exact).1 * 10 ^ (toPrecision9 exact).2 : ℚ) - magnitude .w32 n| ≤
      10 ^ (leadingDigits exact 9).2.1 := by
    rw [abs_le]
    unfold toPrecision9
    generalize leadingDigits exact 9 = leading at hle hlt ⊢
    obtain ⟨below, power, rest⟩ := leading
    simp only at hle hlt ⊢
    split
    · push_cast
      constructor <;> linarith
    · constructor <;> linarith
  -- and its last place is well below the float's
  obtain ⟨s, m, hn, hm, hscaled⟩ := exists_scaled FloatWidth.w32.fractionBits n
  have hvalue : magnitude .w32 n = m * 2 ^ s * unit .w32 := by
    rw [magnitude_eq, hn, mag_scaled hscaled]
    push_cast
    ring
  have hgap : (0 : ℚ) < 2 ^ s * unit .w32 := mul_pos (by positivity) (unit_pos _)
  have hsmall : (10 : ℚ) ^ 8 * 10 ^ (leadingDigits exact 9).2.1 < 2 ^ 24 * (2 ^ s * unit .w32) := by
    have hlow' : (10 : ℚ) ^ 8 ≤ (leadingDigits exact 9).1 := by
      have hnat : 10 ^ 8 ≤ (leadingDigits exact 9).1 := by omega
      exact_mod_cast hnat
    have hm' : (m : ℚ) < 2 ^ 24 := by exact_mod_cast hm
    calc (10 : ℚ) ^ 8 * 10 ^ (leadingDigits exact 9).2.1
        ≤ (leadingDigits exact 9).1 * 10 ^ (leadingDigits exact 9).2.1 :=
          mul_le_mul_of_nonneg_right hlow' hpow.le
      _ ≤ magnitude .w32 n := hle
      _ = m * (2 ^ s * unit .w32) := by rw [hvalue, mul_assoc]
      _ < 2 ^ 24 * (2 ^ s * unit .w32) := mul_lt_mul_of_pos_right hm' hgap
  have hnear := nearest_of_close (unit_pos .w32) hscaled hm
    (v := (toPrecision9 exact).1 * 10 ^ (toPrecision9 exact).2) (by
      rw [← hvalue]
      linarith)
  have hfun : (fun k => (mag FloatWidth.w32.fractionBits k : ℚ) * unit .w32) =
      magnitude .w32 := funext fun k => (magnitude_eq FloatWidth.w32 k).symm
  rwa [hfun, ← hn] at hnear

/-- What is printed for a finite nonzero pattern: a decimal nearest to its place, of no more
digits than any other. -/
theorem formatFloatValue_spec (hjs : PrintsDecimals js) (hbits : bits < 2 ^ 32)
    (hnonzero : place .w32 bits ≠ 0)
    (hfinite : (splitFloat bits .w32).exponent < FloatWidth.w32.topExponent) :
    ∃ y, (formatFloatValue js bits .w32).length ≤ maxValueText ∧
      decimalValue (formatFloatValue js bits .w32) = some ((splitFloat bits .w32).sign, y) ∧
      Nearest (magnitude .w32) y (place .w32 bits) ∧
      ∀ y' d, 0 < y' → Nearest (magnitude .w32) y' (place .w32 bits) → HasDigits y' d →
        HasDigits y d := by
  obtain ⟨hlow, hhigh⟩ := magnitude_bounds hnonzero (place_lt FloatWidth.w32 hfinite)
  have hx : 0 < magnitude .w32 (place .w32 bits) := (zpow_pos (by norm_num) _).trans hlow
  have hspec : ∀ d, 0 < d → Leading (magnitude .w32 (place .w32 bits)) d
      (leadingDigits (exactMagnitude bits .w32) d) := fun d hd =>
    leadingDigits_spec (exactMagnitude_spells FloatWidth.w32 bits) hx hd
  -- what is printed of a decimal beside the value
  have hprint : ∀ d c k, 0 < d → d ≤ 9 →
      k = (leadingDigits (exactMagnitude bits .w32) d).2.1 →
      (c = (leadingDigits (exactMagnitude bits .w32) d).1 ∨
        c = (leadingDigits (exactMagnitude bits .w32) d).1 + 1) →
      (js.decimal (splitFloat bits .w32).sign c k).length ≤ maxValueText ∧
        decimalValue (js.decimal (splitFloat bits .w32).sign c k) =
          some ((splitFloat bits .w32).sign, (c : ℚ) * 10 ^ k) ∧
        HasDigits ((c : ℚ) * 10 ^ k) d := by
    intro d c k hd hd9 hk hc
    obtain ⟨hk1, hk2, hpos, hle⟩ := (hspec d hd).power_bounds hd hd9 hlow hhigh
    have hhas : HasDigits ((c : ℚ) * 10 ^ k) d := by
      have hlt := (hspec d hd).high
      exact hasDigits_of_le hd (by omega) k
    exact ⟨hjs.length _ c k (by omega) (by omega) (by omega) (by omega),
      hjs.value _ c k (by omega) (by omega) (by omega) (by omega), hhas⟩
  -- a decimal of fewer digits would make a candidate of that many read back
  have hcandidate : ∀ y' d, 0 < d → d ≤ 8 → Nearest (magnitude .w32) y' (place .w32 bits) →
      HasDigits y' d → ∃ decimal ∈ bracketingDecimals (exactMagnitude bits .w32) d,
        readsBack bits (js.decimal (splitFloat bits .w32).sign decimal.1 decimal.2) = true := by
    intro y' d hd hd8 hnear hdigits
    obtain ⟨c, k, hmem, hck⟩ := exists_bracketing_nearest (magnitude_strictMono .w32)
      (hspec d hd) hdigits hnear
    obtain ⟨hk, hc⟩ := mem_bracketingDecimals hmem
    obtain ⟨hlen, hvalue, -⟩ := hprint d c k hd (by omega) hk hc
    exact ⟨(c, k), hmem, (readsBack_iff hlen hvalue hbits hfinite hnonzero).mpr hck⟩
  have hdpos : ∀ (y' : ℚ) d, 0 < y' → HasDigits y' d → 0 < d := by
    intro y' d hy' hdigits
    by_contra hzero
    obtain ⟨c, hc, k, rfl⟩ := hdigits
    obtain rfl : d = 0 := by omega
    obtain rfl : c = 0 := by simpa using hc
    simp at hy'
  rw [formatFloatValue_finite hnonzero hfinite]
  cases hfind : ((candidates (exactMagnitude bits .w32)).map fun decimal =>
      js.decimal (splitFloat bits .w32).sign decimal.1 decimal.2).find? (readsBack bits) with
  | some text =>
      obtain ⟨digits, c, k, hdigits, hmem, rfl, hreads, hearlier⟩ := find_candidate hfind
      obtain ⟨hk, hc⟩ := mem_bracketingDecimals hmem
      obtain ⟨hlen, hvalue, hhas⟩ := hprint (digits + 1) c k (Nat.succ_pos _) (by omega) hk hc
      refine ⟨(c : ℚ) * 10 ^ k, hlen, hvalue,
        (readsBack_iff hlen hvalue hbits hfinite hnonzero).mp hreads, ?_⟩
      intro y' d hy' hnear hd
      refine hhas.mono ?_
      by_contra hlt
      have hd0 := hdpos y' d hy' hd
      obtain ⟨decimal, hmem', hback⟩ := hcandidate y' d hd0 (by omega) hnear hd
      have hfalse := hearlier (d - 1) (by omega) decimal (by
        rwa [Nat.sub_add_cancel hd0])
      rw [hback] at hfalse
      cases hfalse
  | none =>
      have hmem9 : (toPrecision9 (exactMagnitude bits .w32)).2 =
            (leadingDigits (exactMagnitude bits .w32) 9).2.1 ∧
          ((toPrecision9 (exactMagnitude bits .w32)).1 =
              (leadingDigits (exactMagnitude bits .w32) 9).1 ∨
            (toPrecision9 (exactMagnitude bits .w32)).1 =
              (leadingDigits (exactMagnitude bits .w32) 9).1 + 1) := by
        unfold toPrecision9
        generalize leadingDigits (exactMagnitude bits .w32) 9 = leading
        obtain ⟨below, power, rest⟩ := leading
        simp only
        split
        · exact ⟨rfl, .inr rfl⟩
        · exact ⟨rfl, .inl rfl⟩
      obtain ⟨hlen, hvalue, hhas⟩ := hprint 9 _ _ (by decide) le_rfl hmem9.1 hmem9.2
      refine ⟨_, hlen, hvalue, nearest_toPrecision9 (hspec 9 (by decide)), ?_⟩
      intro y' d hy' hnear hd
      refine hhas.mono ?_
      by_contra hlt
      obtain ⟨⟨c, k⟩, hmem, hback⟩ := hcandidate y' d (hdpos y' d hy' hd) (by omega) hnear hd
      have hnone := List.find?_eq_none.mp hfind
      refine hnone _ (List.mem_map_of_mem (List.mem_flatMap.mpr ⟨d - 1, ?_, ?_⟩)) hback
      · exact List.mem_range.mpr (by omega)
      · rwa [Nat.sub_add_cancel (hdpos y' d hy' hd)]

end Printed

end Ieee754

end Playground
