/-
The encoder's reader of an immediate and the front end's reader of an integer literal.  They
accept the same literals with the same values, except that the encoder knows no underscores.
-/
import Playground.Assembler.PlainLoad

namespace Playground

namespace Assembler

/-- An immediate after its optional `#`. -/
def afterHash (s : List Char) : List Char := trim (stripHash (trim s))

/-- A literal after its minus sign, which is an operator of its own in the front end. -/
def unsigned (s : List Char) : List Char :=
  match s with
  | '-' :: magnitude => magnitude
  | s => s

/-- The front end's value of an integer literal that may have a minus sign. -/
def frontInteger (s : List Char) : Option Word :=
  match s with
  | '-' :: magnitude => (Lexer.parseInt magnitude).map fun value => -value
  | s => Lexer.parseInt s

/-- The encoder reads an immediate as the front end reads it, unless it is a character. -/
def ReadersAgree (text : List Char) : Prop :=
  ∀ line, quoted (afterHash text) = none →
    (parseImmediate text line).toOption = frontInteger (afterHash text)

/-- The number that digits spell. -/
def numeralValue (radix : Nat) (digits : List Char) : Nat :=
  digits.foldl (fun n c => n * radix + Lexer.digitValue c) 0

/-- Digits below the radix, of a number that fits 64 bits.  The standard library lets a plus
sign precede them. -/
def IsNumeral (radix : Nat) (s : List Char) : Prop :=
  ∃ digits, (s = digits ∨ s = '+' :: digits) ∧ digits ≠ [] ∧
    (∀ c ∈ digits, Lexer.digitValue c < radix) ∧ numeralValue radix digits < 2 ^ 64

/-- The integer literals without a sign or an underscore. -/
inductive IsLiteral : List Char → Prop
  | hex {x : Char} {digits : List Char} (hx : x = 'x' ∨ x = 'X') (h : IsNumeral 16 digits) :
      IsLiteral ('0' :: x :: digits)
  | binary {b : Char} {digits : List Char} (hb : b = 'b' ∨ b = 'B') (h : IsNumeral 2 digits) :
      IsLiteral ('0' :: b :: digits)
  | octal {c : Char} {digits : List Char} (hoctal : ∀ d ∈ c :: digits, '0' ≤ d ∧ d ≤ '7')
      (h : IsNumeral 8 (c :: digits)) : IsLiteral ('0' :: c :: digits)
  | decimal {digits : List Char} (hzero : ∀ c rest, digits ≠ '0' :: c :: rest)
      (h : IsNumeral 10 digits) : IsLiteral digits

section Numeral

variable {radix : Nat} {s : List Char}

/-- The digits after a plus sign. -/
def dropPlus (s : List Char) : List Char :=
  match s with
  | '+' :: rest => rest
  | s => s

theorem readDigits_eq {β : Type} (radix : Nat) (s : List Char) (value : Nat → β) :
    (if s.isEmpty ∨ ¬s.all (fun c => decide (Lexer.digitValue c < radix)) then none
      else if numeralValue radix s < 2 ^ 64 then some (value (numeralValue radix s)) else none) =
    if s ≠ [] ∧ (∀ c ∈ s, Lexer.digitValue c < radix) ∧ numeralValue radix s < 2 ^ 64 then
      some (value (numeralValue radix s)) else none := by
  have hall : s.all (fun c => decide (Lexer.digitValue c < radix)) = true ↔
      ∀ c ∈ s, Lexer.digitValue c < radix := by
    rw [List.all_eq_true]
    exact forall₂_congr fun c _ => decide_eq_true_iff
  by_cases hne : s = []
  · rw [if_pos (.inl (List.isEmpty_iff.mpr hne)), if_neg fun h => h.1 hne]
  by_cases hdigits : ∀ c ∈ s, Lexer.digitValue c < radix
  · rw [if_neg (not_or.mpr ⟨mt List.isEmpty_iff.mp hne, not_not_intro (hall.mpr hdigits)⟩)]
    by_cases hvalue : numeralValue radix s < 2 ^ 64
    · rw [if_pos hvalue, if_pos ⟨hne, hdigits, hvalue⟩]
    · rw [if_neg hvalue, if_neg fun h => hvalue h.2.2]
  · rw [if_pos (.inr (mt hall.mp hdigits)), if_neg fun h => hdigits h.2.1]

theorem fromStrRadix_eq (radix : Nat) (s : List Char) : Lexer.fromStrRadix radix s =
    if dropPlus s ≠ [] ∧ (∀ c ∈ dropPlus s, Lexer.digitValue c < radix) ∧
        numeralValue radix (dropPlus s) < 2 ^ 64 then
      some (BitVec.ofNat 64 (numeralValue radix (dropPlus s)))
    else none :=
  readDigits_eq radix (dropPlus s) (BitVec.ofNat 64)

theorem parseUnsigned_eq (radix : Nat) (s : List Char) :
    (parseUnsigned radix (2 ^ 64) s).map (BitVec.ofNat 64) = Lexer.fromStrRadix radix s := by
  have heq : parseUnsigned radix (2 ^ 64) s = _ := readDigits_eq radix (dropPlus s) id
  rw [heq, fromStrRadix_eq]
  split <;> rfl

theorem digitValue_plus (hradix : radix ≤ 16) : ¬Lexer.digitValue '+' < radix := by
  have hvalue : Lexer.digitValue '+' = 16 := by decide
  omega

/-- A numeral is what the standard library reads. -/
theorem isNumeral_iff (hradix : radix ≤ 16) :
    IsNumeral radix s ↔ (Lexer.fromStrRadix radix s).isSome := by
  have hdigits : IsNumeral radix s ↔ dropPlus s ≠ [] ∧
      (∀ c ∈ dropPlus s, Lexer.digitValue c < radix) ∧
        numeralValue radix (dropPlus s) < 2 ^ 64 := by
    constructor
    · rintro ⟨digits, rfl | rfl, hne, hall, hvalue⟩
      · have hdrop : dropPlus s = s := by
          unfold dropPlus
          split
          · exact absurd (hall '+' List.mem_cons_self) (digitValue_plus hradix)
          · rfl
        rw [hdrop]
        exact ⟨hne, hall, hvalue⟩
      · exact ⟨hne, hall, hvalue⟩
    · rintro ⟨hne, hall, hvalue⟩
      refine ⟨dropPlus s, ?_, hne, hall, hvalue⟩
      unfold dropPlus
      split
      · exact .inr rfl
      · exact .inl rfl
  rw [hdigits, fromStrRadix_eq]
  split <;> rename_i h
  · exact iff_of_true h rfl
  · exact iff_of_false h (by simp)

/-- No numeral holds an underscore. -/
theorem fromStrRadix_underscore (hradix : radix ≤ 16) (h : '_' ∈ s) :
    Lexer.fromStrRadix radix s = none := by
  by_contra hsome
  obtain ⟨digits, hs, -, hall, -⟩ :=
    (isNumeral_iff hradix).mpr (Option.isSome_iff_ne_none.mpr hsome)
  have hmem : '_' ∈ digits := by
    rcases hs with rfl | rfl
    · exact h
    · exact (List.mem_cons.mp h).resolve_left (by decide)
  have hbelow := hall '_' hmem
  have hvalue : Lexer.digitValue '_' = 16 := by decide
  omega

end Numeral

section Magnitude

variable {s : List Char} {c : Char} {line : Nat}

theorem toOption_number (value : Option Nat) (message : String) :
    (match value with
      | some v => .ok (BitVec.ofNat 64 v)
      | none => asmErr line message : Except EmuError Word).toOption =
      value.map (BitVec.ofNat 64) := by
  cases value <;> rfl

theorem toOption_parseMagnitude_hex (hc : c = 'x' ∨ c = 'X') :
    (parseMagnitude ('0' :: c :: s) line).toOption = Lexer.fromStrRadix 16 s := by
  rw [← parseUnsigned_eq]
  rcases hc with rfl | rfl <;> exact toOption_number (parseUnsigned 16 (2 ^ 64) s) _

theorem toOption_parseMagnitude_binary (hc : c = 'b' ∨ c = 'B') :
    (parseMagnitude ('0' :: c :: s) line).toOption = Lexer.fromStrRadix 2 s := by
  rw [← parseUnsigned_eq]
  rcases hc with rfl | rfl <;> exact toOption_number (parseUnsigned 2 (2 ^ 64) s) _

/-- The letters that name a radix after a zero. -/
def IsRadixLetter (c : Char) : Prop := (c = 'x' ∨ c = 'X') ∨ c = 'b' ∨ c = 'B'

/-- What has no radix letter is octal after a zero, when all of it is digits, or decimal. -/
theorem toOption_parseMagnitude_plain (hs : ∀ c rest, s = '0' :: c :: rest → ¬IsRadixLetter c) :
    (parseMagnitude s line).toOption =
      if 1 < s.length ∧ s.head? = some '0' ∧ s.all Char.isDigit then Lexer.parseInt s
      else Lexer.fromStrRadix 10 s := by
  unfold parseMagnitude
  split
  · exact absurd (.inl (.inl rfl)) (hs _ _ rfl)
  · exact absurd (.inl (.inr rfl)) (hs _ _ rfl)
  · exact absurd (.inr (.inl rfl)) (hs _ _ rfl)
  · exact absurd (.inr (.inr rfl)) (hs _ _ rfl)
  · split
    · cases Lexer.parseInt s <;> rfl
    · rw [← parseUnsigned_eq]
      exact toOption_number (parseUnsigned 10 (2 ^ 64) s) _

theorem parseInt_octal (hc : ¬IsRadixLetter c) (hplain : '_' ∉ '0' :: c :: s) :
    Lexer.parseInt ('0' :: c :: s) =
      if (c :: s).all Lexer.isOctalDigit then Lexer.fromStrRadix 8 (c :: s) else none := by
  have hfilter : ('0' :: c :: s).filter (· ≠ '_') = '0' :: c :: s :=
    List.filter_eq_self.mpr fun d hd => decide_eq_true fun heq => hplain (heq ▸ hd)
  unfold Lexer.parseInt
  rw [hfilter]
  split
  · rename_i heq
    cases heq
    exact absurd (.inl (.inl rfl)) hc
  · rename_i heq
    cases heq
    exact absurd (.inl (.inr rfl)) hc
  · rename_i heq
    cases heq
    exact absurd (.inr (.inl rfl)) hc
  · rename_i heq
    cases heq
    exact absurd (.inr (.inr rfl)) hc
  · rename_i heq
    cases heq
    rfl
  · rename_i hnot
    exact absurd rfl (hnot _ _)

theorem parseInt_decimal (hs : ∀ c rest, s ≠ '0' :: c :: rest) (hplain : '_' ∉ s) :
    Lexer.parseInt s = Lexer.fromStrRadix 10 s := by
  have hfilter : s.filter (· ≠ '_') = s :=
    List.filter_eq_self.mpr fun d hd => decide_eq_true fun heq => hplain (heq ▸ hd)
  unfold Lexer.parseInt
  rw [hfilter]
  split
  · exact absurd rfl (hs _ _)
  · exact absurd rfl (hs _ _)
  · exact absurd rfl (hs _ _)
  · exact absurd rfl (hs _ _)
  · exact absurd rfl (hs _ _)
  · rfl

theorem parseInt_radix {radix : Nat} (hplain : '_' ∉ s)
    (hc : (c = 'x' ∨ c = 'X') ∧ radix = 16 ∨ (c = 'b' ∨ c = 'B') ∧ radix = 2) :
    Lexer.parseInt ('0' :: c :: s) = Lexer.fromStrRadix radix s := by
  have hfilter : s.filter (· ≠ '_') = s :=
    List.filter_eq_self.mpr fun d hd => decide_eq_true fun heq => hplain (heq ▸ hd)
  rcases hc with ⟨rfl | rfl, rfl⟩ | ⟨rfl | rfl, rfl⟩ <;>
    exact congrArg (Lexer.fromStrRadix _) hfilter

theorem shape (s : List Char) :
    (∃ c rest, s = '0' :: c :: rest ∧ (c = 'x' ∨ c = 'X')) ∨
    (∃ c rest, s = '0' :: c :: rest ∧ (c = 'b' ∨ c = 'B')) ∨
    (∃ c rest, s = '0' :: c :: rest ∧ ¬IsRadixLetter c) ∨ ∀ c rest, s ≠ '0' :: c :: rest := by
  by_cases hzero : ∃ c rest, s = '0' :: c :: rest
  · obtain ⟨c, rest, rfl⟩ := hzero
    by_cases hhex : c = 'x' ∨ c = 'X'
    · exact .inl ⟨c, rest, rfl, hhex⟩
    by_cases hbinary : c = 'b' ∨ c = 'B'
    · exact .inr (.inl ⟨c, rest, rfl, hbinary⟩)
    · exact .inr (.inr (.inl ⟨c, rest, rfl, not_or.mpr ⟨hhex, hbinary⟩⟩))
  · exact .inr (.inr (.inr fun c rest heq => hzero ⟨c, rest, heq⟩))

theorem isDigit_of_digitValue (h : Lexer.digitValue c < 10) : c.isDigit = true := by
  unfold Lexer.digitValue at h
  split at h
  · assumption
  · split at h
    · omega
    · split at h
      · omega
      · omega

theorem isDigit_of_isOctalDigit (h : Lexer.isOctalDigit c = true) : c.isDigit = true := by
  obtain ⟨hlow, hhigh⟩ := Bool.and_eq_true_iff.mp h
  have hlow : '0' ≤ c := of_decide_eq_true hlow
  have hhigh : c ≤ '7' := of_decide_eq_true hhigh
  exact Bool.and_eq_true_iff.mpr ⟨decide_eq_true hlow, decide_eq_true (le_trans hhigh (by decide))⟩

/-- An underscore is no digit of the encoder's. -/
theorem toOption_parseMagnitude_underscore (h : '_' ∈ s) :
    (parseMagnitude s line).toOption = none := by
  have hrest : ∀ {c rest}, s = '0' :: c :: rest → c ≠ '_' → '_' ∈ rest := by
    rintro c rest rfl hc
    rcases List.mem_cons.mp h with h | h
    · exact absurd h (by decide)
    · exact (List.mem_cons.mp h).resolve_left (Ne.symm hc)
  have hdecimal : ¬(1 < s.length ∧ s.head? = some '0' ∧ s.all Char.isDigit) := by
    rintro ⟨-, -, hall⟩
    exact absurd (List.all_eq_true.mp hall '_' h) (by decide)
  obtain ⟨c, rest, rfl, hc⟩ | ⟨c, rest, rfl, hc⟩ | ⟨c, rest, rfl, hc⟩ | hs := shape s
  · rw [toOption_parseMagnitude_hex hc]
    exact fromStrRadix_underscore (by decide)
      (hrest rfl (by rcases hc with rfl | rfl <;> decide))
  · rw [toOption_parseMagnitude_binary hc]
    exact fromStrRadix_underscore (by decide)
      (hrest rfl (by rcases hc with rfl | rfl <;> decide))
  · rw [toOption_parseMagnitude_plain (by rintro _ _ ⟨⟩; exact hc), if_neg hdecimal]
    exact fromStrRadix_underscore (by decide) h
  · rw [toOption_parseMagnitude_plain fun c rest heq => absurd heq (hs c rest), if_neg hdecimal]
    exact fromStrRadix_underscore (by decide) h

/-- With no underscore both readers read a magnitude alike. -/
theorem toOption_parseMagnitude_eq (h : '_' ∉ s) :
    (parseMagnitude s line).toOption = Lexer.parseInt s := by
  have hrest : ∀ {c rest}, s = '0' :: c :: rest → '_' ∉ rest := by
    rintro c rest rfl hmem
    exact h (.tail _ (.tail _ hmem))
  obtain ⟨c, rest, rfl, hc⟩ | ⟨c, rest, rfl, hc⟩ | ⟨c, rest, rfl, hc⟩ | hs := shape s
  · rw [toOption_parseMagnitude_hex hc, parseInt_radix (hrest rfl) (.inl ⟨hc, rfl⟩)]
  · rw [toOption_parseMagnitude_binary hc, parseInt_radix (hrest rfl) (.inr ⟨hc, rfl⟩)]
  · rw [toOption_parseMagnitude_plain (by rintro _ _ ⟨⟩; exact hc)]
    split
    · rfl
    · rename_i hnot
      -- Not all of it is digits, so neither reader takes it.
      have hall : ¬('0' :: c :: rest).all Char.isDigit := fun hall =>
        hnot ⟨by simp, rfl, hall⟩
      rw [parseInt_octal hc h, if_neg]
      · rw [fromStrRadix_eq, if_neg]
        rintro ⟨-, hdigits, -⟩
        exact hall (List.all_eq_true.mpr fun d hd => isDigit_of_digitValue (hdigits d hd))
      · intro hoctal
        refine hall (List.all_eq_true.mpr fun d hd => ?_)
        rcases List.mem_cons.mp hd with rfl | hd
        · rfl
        · exact isDigit_of_isOctalDigit (List.all_eq_true.mp hoctal d hd)
  · rw [toOption_parseMagnitude_plain fun c rest heq => absurd heq (hs c rest), if_neg,
      parseInt_decimal hs h]
    rintro ⟨hlength, hhead, -⟩
    match s, hlength, hhead with
    | _ :: c :: rest, _, rfl => exact hs c rest rfl

/-- The literals are what the front end reads. -/
theorem isLiteral_iff (h : '_' ∉ s) : IsLiteral s ↔ (Lexer.parseInt s).isSome := by
  have hrest : ∀ {c rest}, s = '0' :: c :: rest → '_' ∉ rest := by
    rintro c rest rfl hmem
    exact h (.tail _ (.tail _ hmem))
  constructor
  · intro hs
    cases hs with
    | hex hx hdigits =>
        rw [parseInt_radix (hrest rfl) (.inl ⟨hx, rfl⟩)]
        exact (isNumeral_iff (by decide)).mp hdigits
    | binary hb hdigits =>
        rw [parseInt_radix (hrest rfl) (.inr ⟨hb, rfl⟩)]
        exact (isNumeral_iff (by decide)).mp hdigits
    | @octal c digits hoctal hdigits =>
        have hletter : ¬IsRadixLetter c := by
          have hc := (hoctal c List.mem_cons_self).2
          rintro ((rfl | rfl) | rfl | rfl) <;> exact absurd hc (by decide)
        rw [parseInt_octal hletter h, if_pos]
        · exact (isNumeral_iff (by decide)).mp hdigits
        · refine List.all_eq_true.mpr fun d hd => ?_
          exact Bool.and_eq_true_iff.mpr
            ⟨decide_eq_true (hoctal d hd).1, decide_eq_true (hoctal d hd).2⟩
    | decimal hzero hdigits =>
        rw [parseInt_decimal hzero h]
        exact (isNumeral_iff (by decide)).mp hdigits
  · intro hsome
    obtain ⟨c, rest, rfl, hc⟩ | ⟨c, rest, rfl, hc⟩ | ⟨c, rest, rfl, hc⟩ | hs := shape s
    · rw [parseInt_radix (hrest rfl) (.inl ⟨hc, rfl⟩)] at hsome
      exact .hex hc ((isNumeral_iff (by decide)).mpr hsome)
    · rw [parseInt_radix (hrest rfl) (.inr ⟨hc, rfl⟩)] at hsome
      exact .binary hc ((isNumeral_iff (by decide)).mpr hsome)
    · rw [parseInt_octal hc h] at hsome
      split at hsome
      · rename_i hoctal
        refine .octal (fun d hd => ?_) ((isNumeral_iff (by decide)).mpr hsome)
        obtain ⟨hlow, hhigh⟩ := Bool.and_eq_true_iff.mp (List.all_eq_true.mp hoctal d hd)
        exact ⟨of_decide_eq_true hlow, of_decide_eq_true hhigh⟩
      · cases hsome
    · rw [parseInt_decimal hs h] at hsome
      exact .decimal hs ((isNumeral_iff (by decide)).mpr hsome)

end Magnitude

section Agreement

variable {text : List Char}

theorem parseInt_filter (s : List Char) : Lexer.parseInt (s.filter (· ≠ '_')) =
    Lexer.parseInt s := by
  unfold Lexer.parseInt
  rw [List.filter_filter]
  simp only [Bool.and_self]

/-- An immediate that is no character is its magnitude with its sign. -/
theorem toOption_parseImmediate (hquoted : quoted (afterHash text) = none) (line : Nat) :
    (parseImmediate text line).toOption =
      if (afterHash text).head? = some '-' then
        (parseMagnitude (unsigned (afterHash text)) line).toOption.map fun value => -value
      else (parseMagnitude (unsigned (afterHash text)) line).toOption := by
  have hquoted : quoted (trim (stripHash (trim text))) = none := hquoted
  unfold parseImmediate
  simp only [hquoted]
  show (match afterHash text with
    | '-' :: magnitude => _
    | s => _ : Except EmuError Word).toOption = _
  unfold unsigned
  split
  · rename_i magnitude heq
    rw [heq, List.head?_cons, if_pos rfl]
    show (parseMagnitude magnitude line >>= fun value => pure (-value)).toOption = _
    cases parseMagnitude magnitude line <;> rfl
  · rename_i hnot
    rw [if_neg]
    intro hhead
    cases heq : afterHash text with
    | nil => rw [heq] at hhead; cases hhead
    | cons c rest =>
        rw [heq] at hhead
        cases hhead
        exact hnot rest heq

theorem frontInteger_eq (s : List Char) : frontInteger s =
    if s.head? = some '-' then (Lexer.parseInt (unsigned s)).map fun value => -value
    else Lexer.parseInt (unsigned s) := by
  unfold frontInteger unsigned
  split
  · rw [List.head?_cons, if_pos rfl]
  · rename_i hnot
    rw [if_neg]
    intro hhead
    cases s with
    | nil => cases hhead
    | cons c rest =>
        cases hhead
        exact hnot rest rfl

theorem not_isLiteral_quote (s : List Char) : ¬IsLiteral ('\'' :: s) := by
  intro h
  cases h with
  | decimal _ h =>
      obtain ⟨digits, hs, -, hall, -⟩ := h
      rcases hs with rfl | hs
      · exact absurd (hall '\'' List.mem_cons_self) (by decide)
      · cases hs

/-- A magnitude is a literal, underscores dropped, when the front end reads it. -/
theorem isLiteral_filter_iff (s : List Char) :
    IsLiteral (s.filter (· ≠ '_')) ↔ (Lexer.parseInt s).isSome := by
  rw [isLiteral_iff (by simp), parseInt_filter]

/-- The readers agree on a text, unless it is a literal only with its underscores dropped. -/
theorem readersAgree_iff (text : List Char) :
    ReadersAgree text ↔ '_' ∉ unsigned (afterHash text) ∨
      ¬IsLiteral ((unsigned (afterHash text)).filter (· ≠ '_')) := by
  cases hquoted : quoted (afterHash text) with
  | some body =>
      refine iff_of_true (fun line h => ?_) (.inr ?_)
      · rw [h] at hquoted
        cases hquoted
      · unfold quoted at hquoted
        split at hquoted
        · rename_i heq
          rw [heq]
          exact not_isLiteral_quote _
        · cases hquoted
  | none =>
      have hagree : ReadersAgree text ↔ ∀ line, (if (afterHash text).head? = some '-' then
          (parseMagnitude (unsigned (afterHash text)) line).toOption.map fun value => -value
          else (parseMagnitude (unsigned (afterHash text)) line).toOption) =
            frontInteger (afterHash text) :=
        forall_congr' fun line =>
          ⟨fun h => toOption_parseImmediate hquoted line ▸ h hquoted,
            fun h _ => (toOption_parseImmediate hquoted line).trans h⟩
      rw [hagree, isLiteral_filter_iff, frontInteger_eq]
      by_cases hplain : '_' ∉ unsigned (afterHash text)
      · refine iff_of_true (fun line => ?_) (.inl hplain)
        rw [toOption_parseMagnitude_eq hplain]
      · have hnone : ∀ line, (parseMagnitude (unsigned (afterHash text)) line).toOption = none :=
          fun line => toOption_parseMagnitude_underscore (not_not.mp hplain)
        simp only [hnone, Option.map_none, ite_self, hplain, false_or]
        cases Lexer.parseInt (unsigned (afterHash text)) with
        | none => simp
        | some value =>
            simp only [Option.map_some, Option.isSome_some, not_true_eq_false, iff_false]
            intro h
            have h := h 0
            split at h <;> cases h

/-- The lexer drops the underscore of `0x0040_0000`, and the encoder refuses it. -/
theorem not_readersAgree : ¬∀ text, ReadersAgree text := by
  intro h
  have hfront : frontInteger (afterHash "0x0040_0000".toList) = some 0x400000 := by
    decide
  have hencoder : (parseImmediate "0x0040_0000".toList 1).toOption = none := by decide
  have hagree := h "0x0040_0000".toList 1 (by decide)
  rw [hfront, hencoder] at hagree
  cases hagree

end Agreement

end Assembler

end Playground
