/-
The integers `printf` prints and `scanf` reads back: the token of a printed number, the field
it is scanned as, and the calls.
-/
import Playground.Hosted.PrintfCalls
import Playground.Hosted.ScanfEnd

namespace Playground

namespace Hosted

open Exec Numerals

/-- Digits of a base that spell a number. -/
structure DigitsOf (base n : Nat) (digits : List Byte) : Prop where
  ne_nil : digits ≠ []
  digit : ∀ b ∈ digits, isDigitForBase b base = true
  value : digitsValue base digits = n

section Digits

variable {base n : Nat}

theorem isDigitForBase_digitByte (hbase : base = 10 ∨ base = 16) {d : Nat} (hd : d < base) :
    isDigitForBase (digitByte false d) base = true ∧
      digitValue (digitByte false d) base = some d := by
  have hten : ∀ d : Fin 10, isDigitForBase (digitByte false d) 10 = true ∧
      digitValue (digitByte false d) 10 = some d.1 := by decide
  have hsixteen : ∀ d : Fin 16, isDigitForBase (digitByte false d) 16 = true ∧
      digitValue (digitByte false d) 16 = some d.1 := by decide
  rcases hbase with rfl | rfl
  · exact hten ⟨d, hd⟩
  · exact hsixteen ⟨d, hd⟩

/-- Zeros in front spell the same number. -/
theorem DigitsOf.zeros (hbase : base = 10 ∨ base = 16) {digits : List Byte}
    (h : DigitsOf base n digits) (k : Nat) : DigitsOf base n (List.replicate k 0x30 ++ digits) := by
  have hzero : isDigitForBase 0x30 base = true ∧ (digitValue 0x30 base).getD 0 = 0 := by
    rcases hbase with rfl | rfl <;> decide
  refine ⟨fun hnil => h.ne_nil (List.append_eq_nil_iff.mp hnil).2, ?_, ?_⟩
  · intro b hb
    rcases List.mem_append.mp hb with hb | hb
    · rw [List.eq_of_mem_replicate hb]
      exact hzero.1
    · exact h.digit b hb
  · rw [digitsValue, List.map_append, List.map_replicate, hzero.2, value_replicate_zero]
    exact h.value

/-- A number as it is printed without a precision. -/
theorem digitsOf_precise (hbase : base = 10 ∨ base = 16) (n : Nat) :
    DigitsOf base n (precise base false none n) := by
  have hone : 1 < base := by
    rcases hbase with rfl | rfl <;> decide
  have hdigits : ∀ d ∈ (base.digits n).reverse, d < base := fun d hd =>
    Nat.digits_lt_base hone (List.mem_reverse.mp hd)
  by_cases hn : n = 0
  · subst hn
    have hzero : precise base false none 0 = [0x30] := by
      rw [precise, numeral_zero]
      rfl
    rw [hzero]
    rcases hbase with rfl | rfl
    · exact ⟨by decide, by decide, by decide⟩
    · exact ⟨by decide, by decide, by decide⟩
  · have hnumeral : DigitsOf base n (numeral base false n) := by
      refine ⟨numeral_ne_nil false hn, ?_, ?_⟩
      · intro b hb
        obtain ⟨d, hd, rfl⟩ := List.mem_map.mp hb
        exact (isDigitForBase_digitByte hbase (hdigits d hd)).1
      · have hmap : (numeral base false n).map (fun b => (digitValue b base).getD 0) =
            (base.digits n).reverse := by
          rw [numeral, List.map_map]
          conv_rhs => rw [← List.map_id (base.digits n).reverse]
          apply List.map_congr_left
          intro d hd
          rw [Function.comp_apply, (isDigitForBase_digitByte hbase (hdigits d hd)).2]
          rfl
        rw [digitsValue, hmap, value_digits_reverse]
    exact hnumeral.zeros hbase _

end Digits

section Parse

theorem not_digit_of_space {b : Byte} (h : isCSpace b = true) (base : Nat) :
    isDigitForBase b base = false := by
  have hspace : ∀ b : Byte, isCSpace b = true → ¬ (0x30 ≤ b ∧ b ≤ 0x39) ∧
      ¬ ((0x30 ≤ b ∧ b ≤ 0x39) ∨ (0x61 ≤ b ∧ b ≤ 0x66) ∨ (0x41 ≤ b ∧ b ≤ 0x46)) ∧
      ¬ (0x30 ≤ b ∧ b ≤ 0x37) ∧ ¬ (b = 0x30 ∨ b = 0x31) := by
    decide
  obtain ⟨hten, hsixteen, height, htwo⟩ := hspace b h
  unfold isDigitForBase
  rw [decide_eq_false hten, decide_eq_false hsixteen, decide_eq_false height,
    decide_eq_false htwo]
  simp only [ite_self]

variable {n : Nat} {digits behind : List Byte} {complete : Bool}

theorem takeWhile_digits {base : Nat} (h : DigitsOf base n digits)
    (hbehind : ∀ b ∈ behind.head?, isDigitForBase b base = false) :
    (digits ++ behind).takeWhile (isDigitForBase · base) = digits := by
  rw [List.takeWhile_append_of_pos h.digit]
  cases behind with
  | nil => simp
  | cons b behind => simp [hbehind b rfl]

/-- What a signed number reads as. -/
def signedValue (negative : Bool) (n : Nat) : Int :=
  if n < 2 ^ 63 then (if negative then -n else n) else if negative then -2 ^ 63 else 2 ^ 63 - 1

theorem parseSignedInt_token {sign : List Byte} (hsign : sign = [] ∨ sign = [0x2D] ∨ sign = [0x2B])
    (h : DigitsOf 10 n digits) (hbehind : ∀ b ∈ behind.head?, isDigitForBase b 10 = false)
    (hend : behind = [] → complete = true) :
    parseSignedInt (sign ++ (digits ++ behind)) false complete =
      .read (signedValue (decide (sign = [0x2D])) n) (sign.length + digits.length) := by
  have hread : readSign (sign ++ (digits ++ behind)) = (decide (sign = [0x2D]), sign.length) := by
    rcases hsign with rfl | rfl | rfl
    · obtain ⟨b, digits, rfl⟩ := List.exists_cons_of_ne_nil h.ne_nil
      have hb := h.digit b (by simp)
      have hminus : b ≠ 0x2D := by rintro rfl; revert hb; decide
      have hplus : b ≠ 0x2B := by rintro rfl; revert hb; decide
      show readSign (b :: _) = _
      rw [readSign, if_neg hminus, if_neg hplus]
      rfl
    · rfl
    · rfl
  have hstop : ¬ (sign.length + digits.length = (sign ++ (digits ++ behind)).length ∧
      ¬ complete = true) := by
    rintro ⟨hlen, hnot⟩
    rw [List.length_append, List.length_append] at hlen
    exact hnot (hend (List.length_eq_zero_iff.mp (by omega)))
  have hne : sign ++ (digits ++ behind) ≠ [] := by simp [h.ne_nil]
  unfold parseSignedInt
  rw [if_neg hne, hread]
  simp only [Bool.false_and, Bool.false_eq_true, if_false, List.drop_left,
    takeWhile_digits h hbehind, hstop, h.ne_nil, h.value, signedValue, decide_eq_true_eq]
  split_ifs <;> rfl

theorem parseUnsignedInt_token {base : Nat} {lead : List Byte}
    (hlead : base = 10 ∧ lead = [] ∨ base = 16 ∧ (lead = [] ∨ lead = [0x30, 0x78]))
    (h : DigitsOf base n digits) (hn : n < 2 ^ 64)
    (hbehind : ∀ b ∈ behind.head?, isCSpace b = true) (hend : behind = [] → complete = true) :
    parseUnsignedInt (lead ++ (digits ++ behind)) base complete =
      .read n (lead.length + digits.length) := by
  have hdigit : ∀ b ∈ behind.head?, isDigitForBase b base = false := fun b hb =>
    not_digit_of_space (hbehind b hb) base
  have hprefixed : (base == 16 && (lead ++ (digits ++ behind))[0]? == some 0x30 &&
      ((lead ++ (digits ++ behind))[1]? == some 0x78 ||
        (lead ++ (digits ++ behind))[1]? == some 0x58)) = decide (lead = [0x30, 0x78]) := by
    rcases hlead with ⟨rfl, rfl⟩ | ⟨rfl, rfl | rfl⟩
    · rfl
    · obtain ⟨b, digits, rfl⟩ := List.exists_cons_of_ne_nil h.ne_nil
      have hnext : ∀ x : Byte, (x = 0x78 ∨ x = 0x58) → (digits ++ behind).head? ≠ some x := by
        intro x hx hhead
        cases digits with
        | nil =>
            have hspace := hbehind x hhead
            rcases hx with rfl | rfl <;> revert hspace <;> decide
        | cons c digits =>
            cases hhead
            have hdigit := h.digit x (by simp)
            rcases hx with rfl | rfl <;> revert hdigit <;> decide
      have hx := hnext 0x78 (.inl rfl)
      have hX := hnext 0x58 (.inr rfl)
      rw [List.head?_eq_getElem?] at hx hX
      simp only [List.nil_append, List.cons_append, List.getElem?_cons_succ,
        beq_eq_false_iff_ne.mpr hx, beq_eq_false_iff_ne.mpr hX, Bool.or_self, Bool.and_false]
      rfl
    · rfl
  have hstop : ¬ (lead.length + digits.length = (lead ++ (digits ++ behind)).length ∧
      ¬ complete = true) := by
    rintro ⟨hlen, hnot⟩
    rw [List.length_append, List.length_append] at hlen
    exact hnot (hend (List.length_eq_zero_iff.mp (by omega)))
  have hne : lead ++ (digits ++ behind) ≠ [] := by simp [h.ne_nil]
  have hstart : (if decide (lead = [0x30, 0x78]) = true then 2 else 0) = lead.length := by
    rcases hlead with ⟨-, rfl⟩ | ⟨-, rfl | rfl⟩ <;> rfl
  unfold parseUnsignedInt
  rw [if_neg hne]
  simp only [hprefixed, hstart, List.drop_left, takeWhile_digits h hdigit, hstop, h.ne_nil,
    h.value, if_false]
  rw [Nat.min_eq_left (by omega)]

end Parse

section Token

variable {blank token behind : List Byte} {closed long : Bool}

/-- A token behind blanks, with white space or the end of the input behind it. -/
structure Delimited (blank token behind : List Byte) (closed : Bool) : Prop where
  before : ∀ b ∈ blank, isCSpace b = true
  head : ∃ b rest, token = b :: rest ∧ isCSpace b = false
  length : token.length ≤ usizeMax
  after : ∀ b ∈ behind.head?, isCSpace b = true
  atEnd : behind = [] → closed = true

theorem Delimited.skipSpace (h : Delimited blank token behind closed) :
    skipSpace (blank ++ (token ++ behind)) 0 = blank.length := by
  obtain ⟨b, rest, rfl, hb⟩ := h.head
  unfold Hosted.skipSpace
  rw [Nat.zero_add, List.drop_zero, List.takeWhile_append_of_pos h.before]
  simp [hb]

/-- The field holds the token, and what is left of it ends the token. -/
theorem Delimited.field (h : Delimited blank token behind closed) :
    ∃ behind', ((blank ++ (token ++ behind)).drop blank.length).take usizeMax = token ++ behind' ∧
      (∀ b ∈ behind'.head?, isCSpace b = true) ∧
      (behind' = [] → (decide (blank.length + usizeMax ≤ (blank ++ (token ++ behind)).length) ||
        closed) = true) := by
  refine ⟨behind.take (usizeMax - token.length), ?_, ?_, ?_⟩
  · rw [List.drop_left, List.take_append, List.take_of_length_le h.length]
  · intro b hb
    apply h.after b
    cases behind with
    | nil =>
        rw [List.take_nil] at hb
        exact hb
    | cons c behind =>
        cases hroom : usizeMax - token.length with
        | zero =>
            rw [hroom] at hb
            cases hb
        | succ room =>
            rw [hroom] at hb
            exact hb
  · intro hnil
    rcases List.take_eq_nil_iff.mp hnil with hfull | hnone
    · have hlen := h.length
      rw [Bool.or_eq_true, decide_eq_true_eq, List.length_append, List.length_append]
      left
      omega
    · rw [h.atEnd hnone, Bool.or_true]

/-- The field of a token that a scanner reads whole. -/
theorem Delimited.scanned {α : Type} (h : Delimited blank token behind closed)
    (scan : List Byte → Bool → ScannedInt α) {value : α}
    (hscan : ∀ behind' complete, (∀ b ∈ behind'.head?, isCSpace b = true) →
      (behind' = [] → complete = true) →
      scan (token ++ behind') complete = .read value token.length) (bits : α → Word) :
    intField (scan (((blank ++ (token ++ behind)).drop blank.length).take usizeMax)
        (decide (blank.length + usizeMax ≤ (blank ++ (token ++ behind)).length) || closed)) bits
        long blank.length =
      .taken (some (storedInt long (bits value))) (blank.length + token.length) := by
  obtain ⟨behind', hfield, hhead, hend⟩ := h.field
  obtain ⟨b, rest, htoken, -⟩ := h.head
  have hne : token.length ≠ 0 := by
    rw [htoken]
    exact Nat.succ_ne_zero _
  rw [hfield, hscan behind' _ hhead hend, intField, if_neg hne]

variable {n : Nat} {digits : List Byte}

theorem scanField_signed {sign : List Byte} (hsign : sign = [] ∨ sign = [0x2D] ∨ sign = [0x2B])
    (hdigits : DigitsOf 10 n digits) (h : Delimited blank (sign ++ digits) behind closed) :
    scanField ⟨false, none, long⟩ 'd' (blank ++ (sign ++ digits ++ behind)) 0 closed =
      .taken (some (storedInt long (BitVec.ofInt 64 (signedValue (decide (sign = [0x2D])) n))))
        (blank.length + (sign ++ digits).length) := by
  rw [← h.scanned (fun buf complete => parseSignedInt buf false complete) ?_ (BitVec.ofInt 64)]
  · rw [← h.skipSpace]
    rfl
  · intro behind' complete hhead hend
    rw [List.append_assoc, List.length_append]
    exact parseSignedInt_token hsign hdigits (fun b hb => not_digit_of_space (hhead b hb) 10) hend

theorem scanField_unsigned {base : Nat} {lead : List Byte} {conv : Char}
    (hconv : base = 10 ∧ conv = 'u' ∨ base = 16 ∧ conv = 'x')
    (hlead : base = 10 ∧ lead = [] ∨ base = 16 ∧ (lead = [] ∨ lead = [0x30, 0x78]))
    (hdigits : DigitsOf base n digits) (hn : n < 2 ^ 64)
    (h : Delimited blank (lead ++ digits) behind closed) :
    scanField ⟨false, none, long⟩ conv (blank ++ (lead ++ digits ++ behind)) 0 closed =
      .taken (some (storedInt long (BitVec.ofNat 64 n)))
        (blank.length + (lead ++ digits).length) := by
  rw [← h.scanned (fun buf complete => parseUnsignedInt buf base complete) ?_ (BitVec.ofNat 64)]
  · rw [← h.skipSpace]
    rcases hconv with ⟨rfl, rfl⟩ | ⟨rfl, rfl⟩ <;> rfl
  · intro behind' complete hhead hend
    rw [List.append_assoc, List.length_append]
    exact parseUnsignedInt_token hlead hdigits hn hhead hend

end Token

section Printed

variable {d : Directive} {long : Bool} {text : List Byte}

/-- Whatever delimits the text, the conversion takes the number and leaves its padding. -/
def ReadBack (d : Directive) (long : Bool) (letter : Char) (raw : Word) (text : List Byte) : Prop :=
  ∃ pad, (pad = 0 ∨ d.left = true) ∧ ∀ (rest : List Byte) (closed : Bool),
    (∀ b ∈ rest.head?, isCSpace b = true) → (rest = [] → closed = true) →
    ∃ used, scanField ⟨false, none, long⟩ letter (text ++ rest) 0 closed =
        .taken (some (storedInt long raw)) used ∧
      (text ++ rest).drop used = List.replicate pad 0x20 ++ rest

/-- Padding is blanks before, zeros in the middle or, on the left, blanks behind. -/
theorem Padded.split {zeroOk : Bool} {lead body : List Byte} (h : Padded d zeroOk lead body text) :
    ∃ before zeros pad, (pad = 0 ∨ d.left = true) ∧ text = List.replicate before 0x20 ++
      (lead ++ (List.replicate zeros 0x30 ++ body) ++ List.replicate pad 0x20) := by
  obtain ⟨pad, hlayout⟩ := h.layout
  split_ifs at hlayout with hleft hzero
  · exact ⟨0, 0, pad, .inr hleft, by simpa using hlayout⟩
  · exact ⟨0, pad, 0, .inl rfl, by simpa using hlayout⟩
  · exact ⟨pad, 0, 0, .inl rfl, by simpa using hlayout⟩

/-- An argument narrowed to what is printed stores back as it was. -/
theorem storedInt_signed (raw : Word) {bits : Nat} (hbits : bits = if long then 64 else 32) :
    storedInt long (BitVec.ofInt 64 (raw.setWidth bits).toInt) = storedInt long raw := by
  subst hbits
  cases long with
  | true =>
      show Stored.long (BitVec.ofInt 64 (raw.setWidth 64).toInt) = .long raw
      rw [BitVec.ofInt_toInt, BitVec.setWidth_eq]
  | false =>
      show Stored.word (((raw.setWidth 32).signExtend 64).setWidth 32) = .word (raw.setWidth 32)
      congr 1
      ext i hi
      simp only [BitVec.getElem_setWidth, BitVec.getLsbD_signExtend, BitVec.getLsbD_setWidth, hi,
        Nat.lt_trans hi (show 32 < 64 by decide), decide_true, Bool.true_and, if_true]

theorem storedInt_unsigned (raw : Word) {bits : Nat} (hbits : bits = if long then 64 else 32) :
    storedInt long (BitVec.ofNat 64 (raw.setWidth bits).toNat) = storedInt long raw := by
  subst hbits
  cases long with
  | true =>
      show Stored.long (BitVec.ofNat 64 (raw.setWidth 64).toNat) = .long raw
      rw [BitVec.ofNat_toNat, BitVec.setWidth_eq]
      rfl
  | false =>
      show Stored.word ((BitVec.ofNat 64 (raw.setWidth 32).toNat).setWidth 32) =
        .word (raw.setWidth 32)
      congr 1
      apply BitVec.eq_of_toNat_eq
      simp

theorem signedValue_natAbs (raw : Word) {bits : Nat} (hbits : bits = if long then 64 else 32) :
    signedValue (decide ((raw.setWidth bits).toInt < 0)) (raw.setWidth bits).toInt.natAbs =
      (raw.setWidth bits).toInt := by
  have hle : bits - 1 ≤ 63 := by
    rw [hbits]
    split_ifs <;> decide
  have hpow : (2 : Int) ^ (bits - 1) ≤ 2 ^ 63 := by
    exact_mod_cast Nat.pow_le_pow_right (by decide) hle
  have hlow := BitVec.le_toInt (raw.setWidth bits)
  have hhigh := BitVec.toInt_lt (x := raw.setWidth bits)
  unfold signedValue
  generalize (raw.setWidth bits).toInt = v at hlow hhigh ⊢
  simp only [decide_eq_true_eq]
  split_ifs <;> omega

/-- The printed token stands between its blanks. -/
theorem delimited_printed {base n pad : Nat} {blank lead digits rest : List Byte} {closed : Bool}
    (hblank : ∀ b ∈ blank, isCSpace b = true) (hlead : ∀ b ∈ lead.head?, isCSpace b = false)
    (hdigits : DigitsOf base n digits) (hlen : (lead ++ digits).length ≤ usizeMax)
    (hrest : ∀ b ∈ rest.head?, isCSpace b = true) (hend : rest = [] → closed = true) :
    Delimited blank (lead ++ digits) (List.replicate pad 0x20 ++ rest) closed := by
  refine ⟨hblank, ?_, hlen, ?_, fun hnil => hend (List.append_eq_nil_iff.mp hnil).2⟩
  · cases lead with
    | nil =>
        obtain ⟨b, digits, rfl⟩ := List.exists_cons_of_ne_nil hdigits.ne_nil
        refine ⟨b, digits, rfl, ?_⟩
        rw [← Bool.not_eq_true]
        intro hspace
        have hdigit := hdigits.digit b (by simp)
        rw [not_digit_of_space hspace] at hdigit
        cases hdigit
    | cons b lead => exact ⟨b, lead ++ digits, rfl, hlead b rfl⟩
  · intro b hb
    cases pad with
    | zero => exact hrest b hb
    | succ pad =>
        cases hb
        decide

/-- The text of a signed conversion is read back. -/
theorem scanField_printed_signed {raw : Word} (hbits : d.bits = if long then 64 else 32)
    (hpadded : Padded d true (d.sign (decide ((raw.setWidth d.bits).toInt < 0)))
      (precise 10 false none (raw.setWidth d.bits).toInt.natAbs) text)
    (hlen : text.length ≤ usizeMax) : ReadBack d long 'd' raw text := by
  obtain ⟨before, zeros, pad, hpad, htext⟩ := hpadded.split
  have hdigits := (digitsOf_precise (.inl rfl) (raw.setWidth d.bits).toInt.natAbs).zeros
    (.inl rfl) zeros
  generalize hds : List.replicate zeros 0x30 ++
    precise 10 false none (raw.setWidth d.bits).toInt.natAbs = digits at hdigits htext
  -- the blank of the space flag is skipped with the padding
  obtain ⟨blank, sign, hsplit, hblank, hsign, hnegative⟩ : ∃ blank sign,
      List.replicate before 0x20 ++ d.sign (decide ((raw.setWidth d.bits).toInt < 0)) =
        blank ++ sign ∧ (∀ b ∈ blank, isCSpace b = true) ∧
      (sign = [] ∨ sign = [0x2D] ∨ sign = [0x2B]) ∧
      decide (sign = [0x2D]) = decide ((raw.setWidth d.bits).toInt < 0) := by
    have hspaces : ∀ k, ∀ b ∈ List.replicate k (0x20 : Byte), isCSpace b = true := by
      intro k b hb
      rw [List.eq_of_mem_replicate hb]
      decide
    unfold Directive.sign
    cases hneg : decide ((raw.setWidth d.bits).toInt < 0) with
    | true => exact ⟨_, [0x2D], rfl, hspaces _, .inr (.inl rfl), rfl⟩
    | false =>
        simp only [Bool.false_eq_true, if_false]
        split_ifs
        · exact ⟨_, [0x2B], rfl, hspaces _, .inr (.inr rfl), rfl⟩
        · refine ⟨List.replicate (before + 1) 0x20, [], ?_, hspaces _, .inl rfl, rfl⟩
          rw [List.append_nil, List.replicate_succ']
        · exact ⟨_, [], rfl, hspaces _, .inl rfl, rfl⟩
  refine ⟨pad, hpad, fun rest closed hrest hend => ?_⟩
  have hwhole : text ++ rest = blank ++ (sign ++ digits ++ (List.replicate pad 0x20 ++ rest)) := by
    rw [htext]
    simp only [List.append_assoc] at hsplit ⊢
    rw [← List.append_assoc (List.replicate before 0x20), hsplit, List.append_assoc]
  have hdelimited : Delimited blank (sign ++ digits) (List.replicate pad 0x20 ++ rest) closed := by
    refine delimited_printed hblank ?_ hdigits ?_ hrest hend
    · rcases hsign with rfl | rfl | rfl <;> simp [isCSpace]
    · have htotal := congrArg List.length htext
      have hparts := congrArg List.length hsplit
      simp only [List.length_append] at htotal hparts ⊢
      omega
  refine ⟨blank.length + (sign ++ digits).length, ?_, ?_⟩
  · rw [hwhole, scanField_signed hsign hdigits hdelimited, hnegative, signedValue_natAbs raw hbits,
      storedInt_signed raw hbits]
  · rw [hwhole, ← List.append_assoc, ← List.length_append, List.drop_left]

/-- The text of an unsigned conversion is read back. -/
theorem scanField_printed_unsigned {raw : Word} {base : Nat} {conv : Byte} {letter : Char}
    (hconv : base = 10 ∧ conv = 0x75 ∧ letter = 'u' ∨ base = 16 ∧ conv = 0x78 ∧ letter = 'x')
    (hbits : d.bits = if long then 64 else 32)
    (hpadded : Padded d true (radixPrefix d conv (raw.setWidth d.bits).toNat)
      (precise base false none (raw.setWidth d.bits).toNat) text)
    (hlen : text.length ≤ usizeMax) : ReadBack d long letter raw text := by
  obtain ⟨before, zeros, pad, hpad, htext⟩ := hpadded.split
  have hbase : base = 10 ∨ base = 16 := hconv.imp And.left And.left
  have hdigits := (digitsOf_precise hbase (raw.setWidth d.bits).toNat).zeros hbase zeros
  generalize List.replicate zeros 0x30 ++ precise base false none (raw.setWidth d.bits).toNat =
    digits at hdigits htext
  have hlead : base = 10 ∧ radixPrefix d conv (raw.setWidth d.bits).toNat = [] ∨
      base = 16 ∧ (radixPrefix d conv (raw.setWidth d.bits).toNat = [] ∨
        radixPrefix d conv (raw.setWidth d.bits).toNat = [0x30, 0x78]) := by
    unfold radixPrefix
    rcases hconv with ⟨rfl, rfl, -⟩ | ⟨rfl, rfl, -⟩
    · exact .inl ⟨rfl, if_neg (by rintro ⟨-, -, h⟩; revert h; decide)⟩
    · refine .inr ⟨rfl, ?_⟩
      split_ifs
      · exact .inr rfl
      · exact .inl rfl
  generalize radixPrefix d conv (raw.setWidth d.bits).toNat = lead at hlead htext
  have hsmall : (raw.setWidth d.bits).toNat < 2 ^ 64 := by
    refine lt_of_lt_of_le (BitVec.isLt _) (Nat.pow_le_pow_right (by decide) ?_)
    rw [hbits]
    split_ifs <;> decide
  refine ⟨pad, hpad, fun rest closed hrest hend => ?_⟩
  have hwhole : text ++ rest = List.replicate before 0x20 ++
      (lead ++ digits ++ (List.replicate pad 0x20 ++ rest)) := by
    rw [htext]
    simp only [List.append_assoc]
  have hdelimited : Delimited (List.replicate before 0x20) (lead ++ digits)
      (List.replicate pad 0x20 ++ rest) closed := by
    refine delimited_printed ?_ ?_ hdigits ?_ hrest hend
    · intro b hb
      rw [List.eq_of_mem_replicate hb]
      decide
    · rcases hlead with ⟨-, rfl⟩ | ⟨-, rfl | rfl⟩ <;> simp [isCSpace]
    · have htotal := congrArg List.length htext
      simp only [List.length_append] at htotal ⊢
      omega
  have hletter : base = 10 ∧ letter = 'u' ∨ base = 16 ∧ letter = 'x' :=
    hconv.imp (fun h => ⟨h.1, h.2.2⟩) fun h => ⟨h.1, h.2.2⟩
  refine ⟨(List.replicate before (0x20 : Byte)).length + (lead ++ digits).length, ?_, ?_⟩
  · rw [hwhole, scanField_unsigned hletter hlead hdigits hsmall hdelimited,
      storedInt_unsigned raw hbits]
  · rw [hwhole, ← List.append_assoc, ← List.length_append, List.drop_left]

end Printed

/-- Letters read as long as they go split a text in one way. -/
theorem munch {p : Byte → Bool} {l r l' r' : List Byte} (h : l ++ r = l' ++ r')
    (hl : ∀ b ∈ l, p b = true) (hl' : ∀ b ∈ l', p b = true) (hr : ∀ b ∈ r.head?, p b = false)
    (hr' : ∀ b ∈ r'.head?, p b = false) : l = l' ∧ r = r' := by
  have htake : ∀ {l r : List Byte}, (∀ b ∈ l, p b = true) → (∀ b ∈ r.head?, p b = false) →
      (l ++ r).takeWhile p = l := by
    intro l r hl hr
    rw [List.takeWhile_append_of_pos hl]
    cases r with
    | nil => simp
    | cons b r => simp [hr b rfl]
  have hfirst : l = l' := by rw [← htake hl hr, h, htake hl' hr']
  subst hfirst
  exact ⟨rfl, List.append_cancel_left h⟩

def lengthLetters (long : Bool) : List Byte := if long then [0x6C] else []

section Directive

variable {m : Machine} {long : Bool} {conv : Byte}

theorem widthWord_unique {width width' rest rest' : List Byte} {c c₁ c₂ : ArgCursor}
    {negative negative' : Bool} {count count' : Nat} {kinds kinds' : List Bool}
    (hwidth : WidthWord m width rest c negative count kinds c₁)
    (hwidth' : WidthWord m width' rest' c negative' count' kinds' c₂)
    (h : width ++ rest = width' ++ rest') :
    rest = rest' ∧ negative = negative' ∧ c₁ = c₂ := by
  have hnostar : ∀ {word rest rest' : List Byte}, Counted word rest → word ++ rest = 0x2A :: rest' →
      False := by
    intro word rest rest' hcounted heq
    cases word with
    | nil => exact hcounted.2.2 rfl (congrArg List.head? heq)
    | cons b word =>
        have hb := hcounted.1 b (by simp)
        cases heq
        revert hb
        decide
  cases hwidth with
  | digits _ hcounted =>
      cases hwidth' with
      | digits _ hcounted' =>
          obtain ⟨-, hrest⟩ := munch h hcounted.1 hcounted'.1 hcounted.2.1 hcounted'.2.1
          exact ⟨hrest, rfl, rfl⟩
      | star => exact (hnostar hcounted h).elim
  | star =>
      cases hwidth' with
      | digits _ hcounted' => exact (hnostar hcounted' h.symm).elim
      | star => exact ⟨List.append_cancel_left h, rfl, rfl⟩

theorem bits_lengthLetters {bits : Nat} (h : LengthWord (lengthLetters long) bits) :
    bits = if long then 64 else 32 := by
  cases long with
  | true =>
      generalize hword : lengthLetters true = word at h
      cases h with
      | int => cases hword
      | short => cases hword
      | char => cases hword
      | long => rfl
      | undefined _ hodd =>
          subst hword
          exact absurd hodd (by decide)
  | false =>
      generalize hword : lengthLetters false = word at h
      cases h with
      | int => rfl
      | short => cases hword
      | char => cases hword
      | long hne => exact absurd hword.symm hne
      | undefined _ hodd =>
          subst hword
          exact absurd hodd (by decide)

/-- The directive of flags, a width, the length and the conversion. -/
theorem directs_integer {flags width fmt rest : List Byte} {c c₁ c₂ : ArgCursor} {negative : Bool}
    {count : Nat} {kinds kinds' : List Bool} {d : Directive}
    (hconv : conv = 0x64 ∨ conv = 0x75 ∨ conv = 0x78) (hflags : ∀ b ∈ flags, isFlag b = true)
    (hnoflag : ∀ b ∈ (width ++ (lengthLetters long ++ [conv])).head?, isFlag b = false)
    (hwidth : WidthWord m width (lengthLetters long ++ [conv]) c negative count kinds c₁)
    (hfmt : fmt = flags ++ (width ++ (lengthLetters long ++ [conv])))
    (h : Directs m fmt c d rest kinds' c₂) :
    rest = [conv] ∧ d.precision = none ∧ d.bits = (if long then 64 else 32) ∧ c₂ = c₁ ∧
      d.left = (decide (0x2D ∈ flags) || negative) := by
  have hletters : ∀ b ∈ lengthLetters long, isLength b = true := by
    cases long <;> decide
  have hconvlength : ∀ b ∈ [conv].head?, isLength b = false := by
    rcases hconv with rfl | rfl | rfl <;> decide
  have hnodot : (lengthLetters long ++ [conv]).head? ≠ some 0x2E := by
    rcases hconv with rfl | rfl | rfl <;> cases long <;> decide
  cases h with
  | intro hflags' hnoflag' hwidth' hprecision hlengths hnolength hbits hleft =>
      obtain ⟨rfl, htail⟩ := munch hfmt hflags' hflags hnoflag' hnoflag
      obtain ⟨hlast, rfl, rfl⟩ := widthWord_unique hwidth' hwidth htail
      generalize hp : d.precision = precision at hprecision
      cases hprecision with
      | absent =>
          rw [List.nil_append] at hlast
          obtain ⟨rfl, rfl⟩ := munch hlast hlengths hletters hnolength hconvlength
          refine ⟨rfl, rfl, ?_, rfl, hleft⟩
          generalize d.bits = bits at hbits
          exact bits_lengthLetters hbits
      | digits => exact absurd (congrArg List.head? hlast).symm hnodot
      | star => exact absurd (congrArg List.head? hlast).symm hnodot

theorem readBack_convertsTo {d : Directive} {c c' : ArgCursor} {kinds : List Bool}
    {text : List Byte} (hconv : conv = 0x64 ∨ conv = 0x75 ∨ conv = 0x78)
    (hprecision : d.precision = none) (hbits : d.bits = if long then 64 else 32)
    (hlen : text.length ≤ usizeMax) (h : ConvertsTo m d conv c kinds text c') :
    ReadBack d long (byteChar conv) (c.int m).1 text := by
  cases h with
  | percent => exact absurd hconv (by decide)
  | null => exact absurd hconv (by decide)
  | pointer => exact absurd hconv (by decide)
  | char => exact absurd hconv (by decide)
  | string => exact absurd hconv (by decide)
  | double hdouble => rcases hconv with rfl | rfl | rfl <;> cases hdouble
  | other _ hother => rcases hconv with rfl | rfl | rfl <;> exact absurd hother (by decide)
  | signed hsigned h =>
      have hletter : conv = 0x64 := by
        rcases hsigned with rfl | rfl
        · rfl
        · exact absurd hconv (by decide)
      subst hletter
      rw [hprecision] at h
      exact scanField_printed_signed hbits h hlen
  | unsigned hunsigned h =>
      have hletter : conv = 0x75 ∨ conv = 0x78 := by
        rcases hconv with rfl | hconv
        · exact absurd hunsigned (by decide)
        · exact hconv
      have hdigits : ∀ n, unsignedDigits d conv n =
          precise (baseOf conv) (conv == 0x58) d.precision n := by
        intro n
        unfold unsignedDigits
        rw [if_neg]
        rintro ⟨-, rfl, -⟩
        exact absurd hletter (by decide)
      rw [hdigits, hprecision] at h
      rcases hletter with rfl | rfl
      · exact scanField_printed_unsigned (.inl ⟨rfl, rfl, rfl⟩) hbits h hlen
      · exact scanField_printed_unsigned (.inr ⟨rfl, rfl, rfl⟩) hbits h hlen

/-- What `printf` prints for one integer. -/
theorem readBack_renders {flags width : List Byte} {c c₁ : ArgCursor} {negative : Bool}
    {count : Nat} {kinds kinds' : List Bool} {out : List Byte}
    (hconv : conv = 0x64 ∨ conv = 0x75 ∨ conv = 0x78) (hflags : ∀ b ∈ flags, isFlag b = true)
    (hnoflag : ∀ b ∈ (width ++ (lengthLetters long ++ [conv])).head?, isFlag b = false)
    (hwidth : WidthWord m width (lengthLetters long ++ [conv]) c negative count kinds c₁)
    (hlen : out.length ≤ usizeMax)
    (h : Renders m (0x25 :: (flags ++ (width ++ (lengthLetters long ++ [conv])))) c kinds' out) :
    ∃ d : Directive, d.left = (decide (0x2D ∈ flags) || negative) ∧
      ReadBack d long (byteChar conv) (c₁.int m).1 out := by
  cases h with
  | literal hb => exact absurd rfl hb
  | trailing h =>
      obtain ⟨hrest, -⟩ := directs_integer hconv hflags hnoflag hwidth rfl h
      cases hrest
  | @directive _ _ _ _ _ d _ field text _ _ _ hdirects hconverts h =>
      obtain ⟨hrest, hprecision, hbits, rfl, hleft⟩ :=
        directs_integer hconv hflags hnoflag hwidth rfl hdirects
      cases hrest
      cases h
      rw [List.append_nil] at hlen ⊢
      exact ⟨d, hleft, readBack_convertsTo hconv hprecision hbits hlen hconverts⟩

end Directive

section Calls

variable {m : Machine} {side : HostSide} {closed long : Bool}

/-- Store a long or an int. -/
def writeInt (mem : Memory) (ptr : Word) (long : Bool) (value : Word) :
    Memory × Except EmuError Unit :=
  if long then mem.writeU64 ptr value else mem.writeU32 ptr (value.setWidth 32)

theorem run_store_storedInt {mem : Memory} {ptr value : Word}
    (h : writeInt m.mem ptr long value = (mem, .ok ())) :
    ∃ m', (Hosted.store ptr (storedInt long value)).run m = (m', .ok ()) ∧ m'.mem = mem := by
  cases long with
  | true =>
      refine ⟨MachineCall.run m (.mem (.writeU64 ptr value)), ?_, congrArg Prod.fst h⟩
      exact congrArg (fun result => (_, result)) (congrArg Prod.snd h)
  | false =>
      refine ⟨MachineCall.run m (.mem (.writeU32 ptr (value.setWidth 32))), ?_,
        congrArg Prod.fst h⟩
      exact congrArg (fun result => (_, result)) (congrArg Prod.snd h)

theorem run_takeField_first {mem : Memory} {value : Word}
    (h : writeInt m.mem (m.regs.gprValue 1 true) long value = (mem, .ok ())) (used : Nat) :
    ∃ m' w, (takeField ⟨false, none, long⟩ (some (storedInt long value)) used
        (ScanState.fresh ⟨0, 0, .new 1⟩)).run ⟨(m.regs.readGpr 0 true).1, m.mem, m.heap⟩ =
      (m', .ok ⟨used, 1, w⟩) ∧ m'.mem = mem := by
  obtain ⟨m₁, w, hnext, hview, -⟩ := (VarargWalker.new 1).run_nextInt (SameView.readGpr m 0 true)
  have hptr : ((VarargWalker.new 1).toArgCursor.int m).1 = m.regs.gprValue 1 true := rfl
  rw [hptr] at hnext
  rw [← hview.mem] at h
  obtain ⟨m', hstore, hmem⟩ := run_store_storedInt h
  refine ⟨m', w, ?_, hmem⟩
  exact (run_bind_ok hnext).trans (run_bind_ok hstore)

theorem scanf_format {conv : Byte} (hconv : conv = 0x64 ∨ conv = 0x75 ∨ conv = 0x78) (long : Bool) :
    ∃ rest used, fromUtf8Lossy (0x25 :: (lengthLetters long ++ [conv])) = '%' :: rest ∧
      parseScanSpec rest = (⟨false, none, long⟩, used) ∧ rest.drop used = [byteChar conv] := by
  rcases hconv with rfl | rfl | rfl <;> cases long <;> exact ⟨_, _, rfl, rfl, rfl⟩

/-- A call that meets its field stores it and is done. -/
theorem run_scanf_integer {conv : Byte} (hconv : conv = 0x64 ∨ conv = 0x75 ∨ conv = 0x78)
    {value : Word} {used : Nat} {mem : Memory}
    (hread : readCString m.mem (m.regs.gprValue 0 true) "scanf's format string" =
      .ok (0x25 :: (lengthLetters long ++ [conv])))
    (hfield : scanField ⟨false, none, long⟩ (byteChar conv) side.stdin 0 closed =
      .taken (some (storedInt long value)) used)
    (hstore : writeInt m.mem (m.regs.gprValue 1 true) long value = (mem, .ok ())) :
    CallAnswers (scanf.run side closed m) 1 ∧ (scanf.run side closed m).1.mem = mem ∧
      (scanf.run side closed m).2.1.stdin = side.stdin.drop used := by
  obtain ⟨rest, letters, hfmt, hspec, hlast⟩ := scanf_format hconv long
  obtain ⟨m', w, htake, hmem⟩ := run_takeField_first hstore used
  have hreads := Reads.field hspec hlast hfield htake (.done [] ⟨used, 1, w⟩ m')
  rw [← hfmt] at hreads
  have hcall : CallReads side.stdin closed m _ [] ⟨used, 1, w⟩ m' := ⟨_, hread, hreads⟩
  obtain ⟨pos, side', hscratch, hrun⟩ := hcall.run
  have hcommit : (scanFrom pos 0 ⟨used, 1, w⟩ []).run side' closed m' =
      (commit ⟨used, 1, w⟩).run side' closed m' := rfl
  rw [hrun, hcommit]
  refine ⟨callAnswers_commit, hmem, ?_⟩
  rw [← stdin_of_scratchOnly hscratch]
  rfl

end Calls

/-- `printf` of an integer under any flags and width prints what `scanf` under the same
conversion, with white space or the end of the input behind it, stores back as it was; it
leaves nothing of the token, and of the padding only what stands behind it. -/
theorem scanf_printf {flags width : List Byte} {conv : Byte} {long negative : Bool} {count : Nat}
    {kinds : List Bool} {c : ArgCursor} {m m' : Machine} {side side' : HostSide} {closed : Bool}
    {outcome : HostOutcome} (hconv : conv = 0x64 ∨ conv = 0x75 ∨ conv = 0x78)
    (hflags : ∀ b ∈ flags, isFlag b = true)
    (hnoflag : ∀ b ∈ (width ++ (lengthLetters long ++ [conv])).head?, isFlag b = false)
    (hwidth : WidthWord m width (lengthLetters long ++ [conv]) ⟨1, 0, 0⟩ negative count kinds c)
    (hfmt : readCString m.mem (m.regs.gprValue 0 true) "printf's format string" =
      .ok (0x25 :: (flags ++ (width ++ (lengthLetters long ++ [conv])))))
    (hprintf : printf.run side closed m = (m', side', .ok outcome)) :
    ∃ out pad, side'.stdout = side.stdout ++ out ∧ (pad = 0 ∨ 0x2D ∈ flags ∨ negative = true) ∧
      ∀ (rest : List Byte) (m₂ : Machine) (side₂ : HostSide) (closed₂ : Bool) (mem : Memory),
        readCString m₂.mem (m₂.regs.gprValue 0 true) "scanf's format string" =
          .ok (0x25 :: (lengthLetters long ++ [conv])) →
        side₂.stdin = out ++ rest → (∀ b ∈ rest.head?, isCSpace b = true) →
        (rest = [] → closed₂ = true) →
        writeInt m₂.mem (m₂.regs.gprValue 1 true) long (c.int m).1 = (mem, .ok ()) →
        CallAnswers (scanf.run side₂ closed₂ m₂) 1 ∧ (scanf.run side₂ closed₂ m₂).1.mem = mem ∧
          (scanf.run side₂ closed₂ m₂).2.1.stdin = List.replicate pad 0x20 ++ rest := by
  obtain ⟨fmt, kinds', out, hread, hrenders, hstdout, hlength, -⟩ := run_printf hprintf
  obtain rfl := Except.ok.inj (hfmt.symm.trans hread)
  have hlen : out.length ≤ usizeMax := by
    rw [← hlength]
    exact Nat.le_pred_of_lt (BitVec.isLt _)
  obtain ⟨d, hleft, pad, hpad, hback⟩ :=
    readBack_renders hconv hflags hnoflag hwidth hlen hrenders
  refine ⟨out, pad, hstdout, ?_, ?_⟩
  · rw [hleft, Bool.or_eq_true, decide_eq_true_eq] at hpad
    exact hpad
  · intro rest m₂ side₂ closed₂ mem hread₂ hstdin hrest hend hstore
    obtain ⟨used, hfield, hdrop⟩ := hback rest closed₂ hrest hend
    rw [← hstdin] at hfield hdrop
    rw [← hdrop]
    exact run_scanf_integer hconv hread₂ hfield hstore

/-- `printf("%05d", 42)`. -/
def printfCall : Machine :=
  ⟨(RegisterFile.new.writeGpr 0 true 0x500000).writeGpr 1 true 42,
    textMemory [0x25, 0x30, 0x35, 0x64, 0], HeapState.new⟩

/-- `scanf("%d", 0x500100)`. -/
def scanfCall : Machine :=
  ⟨(RegisterFile.new.writeGpr 0 true 0x500000).writeGpr 1 true 0x500100,
    textMemory [0x25, 0x64, 0], HeapState.new⟩

/-- The five bytes of the text are scanned at the end of the input. -/
theorem scanf_printf_padded :
    ∃ out, (printf.run HostSide.idle false printfCall).2.1.stdout = out ∧ out.length = 5 ∧
      CallAnswers (scanf.run { HostSide.idle with stdin := out } true scanfCall) 1 ∧
      (scanf.run { HostSide.idle with stdin := out } true scanfCall).1.mem =
        (writeInt scanfCall.mem 0x500100 false 42).1 ∧
      (scanf.run { HostSide.idle with stdin := out } true scanfCall).2.1.stdin = [] := by
  have hok : (printf.run HostSide.idle false printfCall).2.2 = .ok .continue := by
    decide
  have hrun : printf.run HostSide.idle false printfCall =
      ((printf.run HostSide.idle false printfCall).1,
        (printf.run HostSide.idle false printfCall).2.1, .ok .continue) := by
    rw [← hok]
  have hlength : (printf.run HostSide.idle false printfCall).2.1.stdout.length = 5 := by
    decide
  have hwidth : WidthWord printfCall [0x35] (lengthLetters false ++ [0x64]) ⟨1, 0, 0⟩ false
      (decimal [0x35]) [] ⟨1, 0, 0⟩ := .digits _ (by unfold Counted; decide)
  have hflags : ∀ b ∈ ([0x30] : List Byte), isFlag b = true := by decide
  obtain ⟨out, pad, hstdout, hpad, hscan⟩ := scanf_printf (.inl rfl) hflags (by decide) hwidth
    (by decide) hrun
  have hzero : pad = 0 := by
    rcases hpad with hpad | hpad | hpad
    · exact hpad
    · exact absurd hpad (by decide)
    · cases hpad
  rw [hzero] at hscan
  refine ⟨out, hstdout, ?_, ?_⟩
  · rw [← hlength, hstdout]
    rfl
  · have hstored : (writeInt scanfCall.mem 0x500100 false 42).2 = .ok () := by decide
    exact hscan [] scanfCall { HostSide.idle with stdin := out } true _ (by decide)
      (List.append_nil out).symm (by decide) (fun _ => rfl) (Prod.ext rfl hstored)

end Hosted

end Playground
