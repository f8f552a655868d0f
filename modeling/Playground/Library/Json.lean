/-
JSON over UTF-16 code units: the text of a value and the value of a text.
-/
import Mathlib
import Playground.Library.CodeUnits
import Playground.Library.Numerals

/-- A value; a number is the decimal `mantissa * 10 ^ exponent`. -/
inductive Json
  | null
  | bool (b : Bool)
  | num (mantissa exponent : Int)
  | str (s : CodeUnits)
  | arr (items : List Json)
  | obj (members : List (CodeUnits × Json))

open CodeUnits (isHigh isLow)

namespace Json

section Texts

def digitUnit (d : Nat) : UInt16 := UInt16.ofNat (48 + d)

def decimalNat (n : Nat) : CodeUnits :=
  if n = 0 then [48] else (Nat.digits 10 n).reverse.map digitUnit

def decimal (n : Int) : CodeUnits :=
  if n < 0 then 45 :: decimalNat n.natAbs else decimalNat n.natAbs

def numberText (mantissa exponent : Int) : CodeUnits :=
  if exponent = 0 then decimal mantissa else decimal mantissa ++ 101 :: decimal exponent

def hexUnit (n : Nat) : UInt16 := UInt16.ofNat (if n < 10 then 48 + n else 87 + n)

def unicodeEscape (u : UInt16) : CodeUnits :=
  [92, 117, hexUnit (u.toNat / 4096), hexUnit (u.toNat / 256 % 16), hexUnit (u.toNat / 16 % 16),
    hexUnit (u.toNat % 16)]

/-- The units a string has for one of its own that is not in a surrogate pair. -/
def escapeUnit (u : UInt16) : CodeUnits :=
  if u = 34 then [92, 34]
  else if u = 92 then [92, 92]
  else if u = 8 then [92, 98]
  else if u = 9 then [92, 116]
  else if u = 10 then [92, 110]
  else if u = 12 then [92, 102]
  else if u = 13 then [92, 114]
  else if u < 32 ∨ isHigh u ∨ isLow u then unicodeEscape u
  else [u]

/-- The text between the quotes. -/
def quoted : CodeUnits → CodeUnits
  | [] => []
  | [u] => escapeUnit u
  | u :: v :: s =>
      if isHigh u ∧ isLow v then u :: v :: quoted s else escapeUnit u ++ quoted (v :: s)

def stringText (s : CodeUnits) : CodeUnits := 34 :: (quoted s ++ [34])

mutual

def text : Json → CodeUnits
  | .null => [110, 117, 108, 108]
  | .bool true => [116, 114, 117, 101]
  | .bool false => [102, 97, 108, 115, 101]
  | .num mantissa exponent => numberText mantissa exponent
  | .str s => stringText s
  | .arr items => 91 :: itemsText items
  | .obj members => 123 :: membersText members

/-- The items of a list with the bracket that closes it. -/
def itemsText : List Json → CodeUnits
  | [] => [93]
  | j :: items => text j ++ moreItems items

def moreItems : List Json → CodeUnits
  | [] => [93]
  | j :: items => 44 :: (text j ++ moreItems items)

def membersText : List (CodeUnits × Json) → CodeUnits
  | [] => [125]
  | (key, j) :: members => stringText key ++ 58 :: (text j ++ moreMembers members)

def moreMembers : List (CodeUnits × Json) → CodeUnits
  | [] => [125]
  | (key, j) :: members => 44 :: (stringText key ++ 58 :: (text j ++ moreMembers members))

end

end Texts

section Readers

def isBlank (u : UInt16) : Bool := u = 32 || u = 9 || u = 10 || u = 13

def skip (s : CodeUnits) : CodeUnits := s.dropWhile isBlank

def isDigit (u : UInt16) : Bool := decide (48 ≤ u ∧ u ≤ 57)

def readDigits (s : CodeUnits) : List Nat × CodeUnits :=
  ((s.takeWhile isDigit).map fun u => u.toNat - 48, s.dropWhile isDigit)

def readSign : CodeUnits → Bool × CodeUnits
  | [] => (false, [])
  | u :: s => if u = 45 then (true, s) else (false, u :: s)

def signed (negative : Bool) (n : Nat) : Int := if negative then -n else n

/-- The digits behind a point. -/
def readFraction : CodeUnits → Option (List Nat × CodeUnits)
  | [] => some ([], [])
  | u :: s =>
      if u = 46 then if (readDigits s).1 = [] then none else some (readDigits s)
      else some ([], u :: s)

/-- The exponent's sign may be a plus. -/
def readExponentSign : CodeUnits → Bool × CodeUnits
  | [] => (false, [])
  | u :: s => if u = 43 then (false, s) else readSign (u :: s)

def readExponent : CodeUnits → Option (Int × CodeUnits)
  | [] => some (0, [])
  | u :: s =>
      if u = 101 ∨ u = 69 then
        let (negative, s) := readExponentSign s
        if (readDigits s).1 = [] then none
        else some (signed negative (Numerals.value 10 (readDigits s).1), (readDigits s).2)
      else some (0, u :: s)

def readNumber (s : CodeUnits) : Option (Json × CodeUnits) :=
  let (negative, s) := readSign s
  let (whole, s) := readDigits s
  if whole = [] ∨ (whole.head? = some 0 ∧ whole ≠ [0]) then none
  else
    (readFraction s).bind fun (fraction, s) =>
      (readExponent s).map fun (exponent, s) =>
        (.num (signed negative (Numerals.value 10 (whole ++ fraction)))
          (exponent - fraction.length), s)

def unescape (u : UInt16) : Option UInt16 :=
  if u = 34 ∨ u = 92 ∨ u = 47 then some u
  else if u = 98 then some 8
  else if u = 116 then some 9
  else if u = 110 then some 10
  else if u = 102 then some 12
  else if u = 114 then some 13
  else none

def hexValue (u : UInt16) : Option Nat :=
  if 48 ≤ u ∧ u ≤ 57 then some (u.toNat - 48)
  else if 97 ≤ u ∧ u ≤ 102 then some (u.toNat - 87)
  else if 65 ≤ u ∧ u ≤ 70 then some (u.toNat - 55)
  else none

/-- One more unit in front of what is read. -/
def prepend (u : UInt16) (read : Option (CodeUnits × CodeUnits)) : Option (CodeUnits × CodeUnits) :=
  read.map fun (t, s) => (u :: t, s)

/-- What a reader of a string is in the middle of. -/
inductive Pending
  | plain
  | escape
  /-- Of a `u` escape, the digits to come but one and the value so far. -/
  | hex (digits value : Nat)

/-- A string behind its opening quote, and what is behind it. -/
def readQuoted : Pending → CodeUnits → Option (CodeUnits × CodeUnits)
  | _, [] => none
  | .plain, u :: s =>
      if u = 34 then some ([], s)
      else if u = 92 then readQuoted .escape s
      else if u < 32 then none
      else prepend u (readQuoted .plain s)
  | .escape, u :: s =>
      if u = 117 then readQuoted (.hex 3 0) s
      else (unescape u).bind fun x => prepend x (readQuoted .plain s)
  | .hex 0 value, u :: s =>
      (hexValue u).bind fun d =>
        prepend (UInt16.ofNat (value * 16 + d)) (readQuoted .plain s)
  | .hex (digits + 1) value, u :: s =>
      (hexValue u).bind fun d => readQuoted (.hex digits (value * 16 + d)) s

/-- A word that stands for a value. -/
def readWord (word : CodeUnits) (j : Json) (s : CodeUnits) : Option (Json × CodeUnits) :=
  if word.isPrefixOf s then some (j, s.drop word.length) else none

mutual

def readValue : Nat → CodeUnits → Option (Json × CodeUnits)
  | 0, _ => none
  | fuel + 1, s =>
      match skip s with
      | [] => none
      | u :: rest =>
          if u = 34 then (readQuoted .plain rest).map fun (t, s) => (.str t, s)
          else if u = 91 then readItems fuel rest
          else if u = 123 then readMembers fuel rest
          else if u = 110 then readWord [110, 117, 108, 108] .null (u :: rest)
          else if u = 116 then readWord [116, 114, 117, 101] (.bool true) (u :: rest)
          else if u = 102 then readWord [102, 97, 108, 115, 101] (.bool false) (u :: rest)
          else readNumber (u :: rest)

/-- A list behind its opening bracket. -/
def readItems : Nat → CodeUnits → Option (Json × CodeUnits)
  | 0, _ => none
  | fuel + 1, s =>
      match skip s with
      | [] => none
      | u :: rest =>
          if u = 93 then some (.arr [], rest)
          else (readSomeItems fuel (u :: rest)).map fun (items, s) => (.arr items, s)

/-- At least one item, to the closing bracket. -/
def readSomeItems : Nat → CodeUnits → Option (List Json × CodeUnits)
  | 0, _ => none
  | fuel + 1, s =>
      (readValue fuel s).bind fun (j, s) =>
        match skip s with
        | [] => none
        | u :: rest =>
            if u = 93 then some ([j], rest)
            else if u = 44 then
              (readSomeItems fuel rest).map fun (items, s) => (j :: items, s)
            else none

def readMembers : Nat → CodeUnits → Option (Json × CodeUnits)
  | 0, _ => none
  | fuel + 1, s =>
      match skip s with
      | [] => none
      | u :: rest =>
          if u = 125 then some (.obj [], rest)
          else (readSomeMembers fuel (u :: rest)).map fun (members, s) => (.obj members, s)

def readSomeMembers : Nat → CodeUnits → Option (List (CodeUnits × Json) × CodeUnits)
  | 0, _ => none
  | fuel + 1, s =>
      match skip s with
      | [] => none
      | u :: rest =>
          if u = 34 then
            (readQuoted .plain rest).bind fun (key, s) =>
              match skip s with
              | [] => none
              | u :: rest =>
                  if u = 58 then
                    (readValue fuel rest).bind fun (j, s) =>
                      match skip s with
                      | [] => none
                      | u :: rest =>
                          if u = 125 then some ([(key, j)], rest)
                          else if u = 44 then
                            (readSomeMembers fuel rest).map fun (members, s) =>
                              ((key, j) :: members, s)
                          else none
                  else none
          else none

end

/-- The value a text spells. -/
def parse (s : CodeUnits) : Option Json :=
  (readValue (2 * s.length + 2) s).bind fun (j, rest) => if skip rest = [] then some j else none

/-- The value under a key; the last one counts. -/
def get? (key : CodeUnits) : Json → Option Json
  | .obj members => (members.reverse.find? fun m => m.1 = key).map Prod.snd
  | _ => none

end Readers

section Numbers

/-- What stands behind a value of a written text: nothing, a comma or a closing bracket. -/
def Ends (rest : CodeUnits) : Prop := ∀ u ∈ rest.head?, u = 44 ∨ u = 93 ∨ u = 125

variable {rest : CodeUnits}

theorem isDigit_digitUnit : ∀ d < 10, isDigit (digitUnit d) = true := by decide

theorem toNat_digitUnit : ∀ d < 10, (digitUnit d).toNat - 48 = d := by decide

theorem readDigits_digits {ds : List Nat} (hds : ∀ d ∈ ds, d < 10)
    (hrest : ∀ u ∈ rest.head?, isDigit u = false) :
    readDigits (ds.map digitUnit ++ rest) = (ds, rest) := by
  induction ds with
  | nil =>
      cases rest with
      | nil => rfl
      | cons u rest => simp [readDigits, hrest u rfl]
  | cons d ds ih =>
      have hd : d < 10 := hds d List.mem_cons_self
      have ih := ih fun d hd => hds d (List.mem_cons_of_mem _ hd)
      simp only [readDigits, Prod.mk.injEq] at ih
      simp [readDigits, isDigit_digitUnit d hd, toNat_digitUnit d hd, ih]

/-- The digits of a number's text. -/
def decimalDigits (n : Nat) : List Nat := if n = 0 then [0] else (Nat.digits 10 n).reverse

theorem decimalNat_eq (n : Nat) : decimalNat n = (decimalDigits n).map digitUnit := by
  by_cases hn : n = 0
  · simp [decimalNat, decimalDigits, hn, digitUnit]
  · simp [decimalNat, decimalDigits, hn]

theorem decimalDigits_lt (n : Nat) : ∀ d ∈ decimalDigits n, d < 10 := by
  intro d hd
  by_cases hn : n = 0
  · simp only [decimalDigits, if_pos hn, List.mem_singleton] at hd
    omega
  · simp only [decimalDigits, if_neg hn, List.mem_reverse] at hd
    exact Nat.digits_lt_base (by decide) hd

theorem value_decimalDigits (n : Nat) : Numerals.value 10 (decimalDigits n) = n := by
  by_cases hn : n = 0
  · simp [decimalDigits, hn, Numerals.value]
  · rw [decimalDigits, if_neg hn]
    exact Numerals.value_digits_reverse 10 n

theorem decimalDigits_ne_nil (n : Nat) : decimalDigits n ≠ [] := by
  by_cases hn : n = 0
  · simp [decimalDigits, hn]
  · simp [decimalDigits, hn, Nat.digits_ne_nil_iff_ne_zero]

/-- No number's text has a zero in front. -/
theorem decimalDigits_head (n : Nat) :
    ¬ ((decimalDigits n).head? = some 0 ∧ decimalDigits n ≠ [0]) := by
  rintro ⟨hhead, hne⟩
  have hn : n ≠ 0 := by
    rintro rfl
    exact hne rfl
  rw [decimalDigits, if_neg hn, List.head?_reverse,
    List.getLast?_eq_some_getLast (Nat.digits_ne_nil_iff_ne_zero.2 hn)] at hhead
  exact Nat.getLast_digit_ne_zero 10 hn (Option.some.inj hhead)

theorem signed_natAbs_neg {n : Int} (hn : n < 0) : signed true n.natAbs = n := by
  simp only [signed, if_true]
  omega

theorem signed_natAbs {n : Int} (hn : ¬ n < 0) : signed false n.natAbs = n := by
  simp only [signed]
  simp
  omega

/-- The sign of a number's text, and then its digits. -/
theorem readSign_decimal (n : Int) (rest : CodeUnits) :
    readSign (decimal n ++ rest) =
      (decide (n < 0), (decimalDigits n.natAbs).map digitUnit ++ rest) := by
  by_cases hn : n < 0
  · simp [decimal, hn, readSign, decimalNat_eq]
  · rw [decimal, if_neg hn, decimalNat_eq]
    cases hds : decimalDigits n.natAbs with
    | nil => exact absurd hds (decimalDigits_ne_nil _)
    | cons d ds =>
        have hd : d < 10 := decimalDigits_lt n.natAbs d (by simp [hds])
        have hsign : ∀ d < 10, digitUnit d ≠ 45 := by decide
        simp [readSign, hsign d hd, hn]

theorem signed_decimal (n : Int) :
    signed (decide (n < 0)) (Numerals.value 10 (decimalDigits n.natAbs)) = n := by
  rw [value_decimalDigits]
  by_cases hn : n < 0
  · simpa [hn] using signed_natAbs_neg hn
  · simpa [hn] using signed_natAbs hn

theorem Ends.not_digit (hrest : Ends rest) : ∀ u ∈ rest.head?, isDigit u = false := by
  intro u hu
  obtain rfl | rfl | rfl := hrest u hu
  all_goals decide

theorem readFraction_of_ne {u : UInt16} {s : CodeUnits} (hu : u ≠ 46) :
    readFraction (u :: s) = some ([], u :: s) := by
  simp [readFraction, hu]

theorem Ends.readFraction (hrest : Ends rest) : readFraction rest = some ([], rest) := by
  cases rest with
  | nil => rfl
  | cons u rest =>
      apply readFraction_of_ne
      obtain rfl | rfl | rfl := hrest u rfl
      all_goals decide

theorem Ends.readExponent (hrest : Ends rest) : readExponent rest = some (0, rest) := by
  cases rest with
  | nil => rfl
  | cons u rest =>
      obtain rfl | rfl | rfl := hrest u rfl
      all_goals rfl

theorem readExponentSign_decimal (n : Int) (rest : CodeUnits) :
    readExponentSign (decimal n ++ rest) = readSign (decimal n ++ rest) := by
  by_cases hn : n < 0
  · simp [decimal, hn, readExponentSign]
  · rw [decimal, if_neg hn, decimalNat_eq]
    cases hds : decimalDigits n.natAbs with
    | nil => exact absurd hds (decimalDigits_ne_nil _)
    | cons d ds =>
        have hd : d < 10 := decimalDigits_lt n.natAbs d (by simp [hds])
        have hplus : ∀ d < 10, digitUnit d ≠ 43 := by decide
        simp [readExponentSign, hplus d hd]

theorem readExponent_decimal (n : Int) (hrest : Ends rest) :
    readExponent (101 :: (decimal n ++ rest)) = some (n, rest) := by
  have hdigits := readDigits_digits (decimalDigits_lt n.natAbs) hrest.not_digit
  simp [readExponent, readExponentSign_decimal, readSign_decimal, hdigits,
    decimalDigits_ne_nil, signed_decimal]

theorem readNumber_numberText (mantissa exponent : Int) (hrest : Ends rest) :
    readNumber (numberText mantissa exponent ++ rest) =
      some (.num mantissa exponent, rest) := by
  have hhead := decimalDigits_head mantissa.natAbs
  have hnil := decimalDigits_ne_nil mantissa.natAbs
  by_cases hexp : exponent = 0
  · subst hexp
    have hdigits := readDigits_digits (decimalDigits_lt mantissa.natAbs) hrest.not_digit
    simp [numberText, readNumber, readSign_decimal, hdigits, hhead, hnil, hrest.readFraction,
      hrest.readExponent, signed_decimal]
  · have hdigits := @readDigits_digits (101 :: (decimal exponent ++ rest)) _
      (decimalDigits_lt mantissa.natAbs) (by simp [isDigit])
    have hfraction := @readFraction_of_ne 101 (decimal exponent ++ rest) (by decide)
    simp [numberText, hexp, readNumber, readSign_decimal, hdigits, hhead, hnil, hfraction,
      readExponent_decimal exponent hrest, signed_decimal]

end Numbers

section Strings

variable {u : UInt16} {s rest : CodeUnits}

theorem hexValue_hexUnit : ∀ n < 16, hexValue (hexUnit n) = some n := by decide

theorem readQuoted_unicodeEscape (u : UInt16) (s : CodeUnits) :
    readQuoted .plain (unicodeEscape u ++ s) = prepend u (readQuoted .plain s) := by
  have hu : u.toNat < 65536 := u.toNat_lt
  have hsum : (((0 * 16 + u.toNat / 4096) * 16 + u.toNat / 256 % 16) * 16 +
      u.toNat / 16 % 16) * 16 + u.toNat % 16 = u.toNat := by omega
  have hstart : readQuoted .plain (unicodeEscape u ++ s) =
      readQuoted (.hex 3 0) (hexUnit (u.toNat / 4096) :: hexUnit (u.toNat / 256 % 16) ::
        hexUnit (u.toNat / 16 % 16) :: hexUnit (u.toNat % 16) :: s) := rfl
  rw [hstart, readQuoted, hexValue_hexUnit _ (by omega), Option.bind_some, readQuoted,
    hexValue_hexUnit _ (by omega), Option.bind_some, readQuoted, hexValue_hexUnit _ (by omega),
    Option.bind_some, readQuoted, hexValue_hexUnit _ (by omega), Option.bind_some, hsum,
    UInt16.ofNat_toNat]

/-- A unit that needs no escape stands for itself. -/
theorem readQuoted_plain (hquote : u ≠ 34) (hslash : u ≠ 92) (hlow : ¬ u < 32)
    (s : CodeUnits) : readQuoted .plain (u :: s) = prepend u (readQuoted .plain s) := by
  simp [readQuoted, hquote, hslash, hlow]

/-- Whatever a unit is written as, it is read back. -/
theorem readQuoted_escapeUnit (u : UInt16) (s : CodeUnits) :
    readQuoted .plain (escapeUnit u ++ s) = prepend u (readQuoted .plain s) := by
  by_cases hshort : u = 34 ∨ u = 92 ∨ u = 8 ∨ u = 9 ∨ u = 10 ∨ u = 12 ∨ u = 13
  · obtain rfl | rfl | rfl | rfl | rfl | rfl | rfl := hshort
    all_goals rfl
  · simp only [not_or] at hshort
    obtain ⟨h34, h92, h8, h9, h10, h12, h13⟩ := hshort
    by_cases hlong : u < 32 ∨ isHigh u = true ∨ isLow u = true
    · have hescape : escapeUnit u = unicodeEscape u := by
        simp [escapeUnit, h34, h92, h8, h9, h10, h12, h13, hlong]
      rw [hescape, readQuoted_unicodeEscape]
    · have hescape : escapeUnit u = [u] := by
        simp [escapeUnit, h34, h92, h8, h9, h10, h12, h13, hlong]
      rw [hescape]
      exact readQuoted_plain h34 h92 (fun h => hlong (Or.inl h)) s

theorem readQuoted_surrogate (hu : isHigh u = true ∨ isLow u = true) (s : CodeUnits) :
    readQuoted .plain (u :: s) = prepend u (readQuoted .plain s) := by
  have hbig : 0xd800 ≤ u.toNat := by
    simp only [isHigh, isLow, decide_eq_true_eq, UInt16.le_iff_toNat_le] at hu
    obtain h | h := hu
    · exact h.1
    · exact le_trans (by decide) h.1
  apply readQuoted_plain
  · rintro rfl
    exact absurd hbig (by decide)
  · rintro rfl
    exact absurd hbig (by decide)
  · rw [UInt16.lt_iff_toNat_lt]
    have h32 : (32 : UInt16).toNat = 32 := rfl
    omega

/-- A string is read from its text. -/
theorem readQuoted_quoted (t rest : CodeUnits) :
    readQuoted .plain (quoted t ++ 34 :: rest) = some (t, rest) := by
  have hquote : readQuoted .plain (34 :: rest) = some ([], rest) := rfl
  induction t using quoted.induct with
  | case1 => exact hquote
  | case2 u => rw [quoted, readQuoted_escapeUnit, hquote, prepend, Option.map_some]
  | case3 u v t hpair ih =>
      rw [quoted, if_pos hpair, List.cons_append, List.cons_append,
        readQuoted_surrogate (Or.inl hpair.1), readQuoted_surrogate (Or.inr hpair.2), ih]
      rfl
  | case4 u v t hpair ih =>
      rw [quoted, if_neg hpair, List.append_assoc, readQuoted_escapeUnit, ih]
      rfl

end Strings

section Values

variable {rest : CodeUnits}

theorem Ends.cons {u : UInt16} (hu : u = 44 ∨ u = 93 ∨ u = 125) (s : CodeUnits) :
    Ends (u :: s) := by
  rintro v ⟨⟩
  exact hu

theorem skip_cons {u : UInt16} (hu : isBlank u = false) (s : CodeUnits) :
    skip (u :: s) = u :: s := by
  simp [skip, hu]

/-- The unit a value's text begins with. -/
theorem exists_text_eq (j : Json) :
    ∃ u s, text j = u :: s ∧ isBlank u = false ∧ u ≠ 93 := by
  cases j with
  | null => exact ⟨_, _, rfl, by decide, by decide⟩
  | bool b =>
      cases b with
      | false => exact ⟨_, _, rfl, by decide, by decide⟩
      | true => exact ⟨_, _, rfl, by decide, by decide⟩
  | num mantissa exponent =>
      have hhead : ∃ u s, decimal mantissa = u :: s ∧ isBlank u = false ∧ u ≠ 93 := by
        by_cases hm : mantissa < 0
        · exact ⟨45, _, by rw [decimal, if_pos hm], by decide, by decide⟩
        · rw [decimal, if_neg hm, decimalNat_eq]
          cases hds : decimalDigits mantissa.natAbs with
          | nil => exact absurd hds (decimalDigits_ne_nil _)
          | cons d ds =>
              have hd : d < 10 := decimalDigits_lt mantissa.natAbs d (by simp [hds])
              have hall : ∀ d < 10, isBlank (digitUnit d) = false ∧ digitUnit d ≠ 93 := by
                decide
              exact ⟨_, _, rfl, hall d hd⟩
      obtain ⟨u, s, heq, hu⟩ := hhead
      by_cases hexp : exponent = 0
      · exact ⟨u, s, by rw [text, numberText, if_pos hexp, heq], hu⟩
      · exact ⟨u, _, by rw [text, numberText, if_neg hexp, heq, List.cons_append], hu⟩
  | str s => exact ⟨34, _, rfl, by decide, by decide⟩
  | arr items => exact ⟨91, _, rfl, by decide, by decide⟩
  | obj members => exact ⟨123, _, rfl, by decide, by decide⟩

theorem length_text_pos (j : Json) : 1 ≤ (text j).length := by
  obtain ⟨u, s, heq, -, -⟩ := exists_text_eq j
  simp [heq]

theorem moreItems_cons (j : Json) (items : List Json) :
    moreItems (j :: items) = 44 :: itemsText (j :: items) := by
  rw [moreItems, itemsText]

theorem moreMembers_cons (m : CodeUnits × Json) (members : List (CodeUnits × Json)) :
    moreMembers (m :: members) = 44 :: membersText (m :: members) := by
  rw [moreMembers, membersText]

theorem length_moreItems_pos (items : List Json) : 1 ≤ (moreItems items).length := by
  cases items with
  | nil => exact Nat.le_refl 1
  | cons j items => simp [moreItems_cons]

theorem moreItems_ends (items : List Json) (rest : CodeUnits) :
    Ends (moreItems items ++ rest) := by
  cases items with
  | nil => exact Ends.cons (by decide) _
  | cons j items =>
      rw [moreItems_cons]
      exact Ends.cons (by decide) _

theorem moreMembers_ends (members : List (CodeUnits × Json)) (rest : CodeUnits) :
    Ends (moreMembers members ++ rest) := by
  cases members with
  | nil => exact Ends.cons (by decide) _
  | cons m members =>
      rw [moreMembers_cons]
      exact Ends.cons (by decide) _

/-- A number's text is not taken for another kind of value. -/
theorem readValue_number {fuel : Nat} (mantissa exponent : Int) (rest : CodeUnits) :
    readValue (fuel + 1) (numberText mantissa exponent ++ rest) =
      readNumber (numberText mantissa exponent ++ rest) := by
  have hhead : ∃ u s, numberText mantissa exponent = u :: s ∧ isBlank u = false ∧
      u ≠ 34 ∧ u ≠ 91 ∧ u ≠ 123 ∧ u ≠ 110 ∧ u ≠ 116 ∧ u ≠ 102 := by
    have hdecimal : ∃ u s, decimal mantissa = u :: s ∧ isBlank u = false ∧
        u ≠ 34 ∧ u ≠ 91 ∧ u ≠ 123 ∧ u ≠ 110 ∧ u ≠ 116 ∧ u ≠ 102 := by
      by_cases hm : mantissa < 0
      · exact ⟨45, _, by rw [decimal, if_pos hm], by decide⟩
      · rw [decimal, if_neg hm, decimalNat_eq]
        cases hds : decimalDigits mantissa.natAbs with
        | nil => exact absurd hds (decimalDigits_ne_nil _)
        | cons d ds =>
            have hd : d < 10 := decimalDigits_lt mantissa.natAbs d (by simp [hds])
            have hall : ∀ d < 10, isBlank (digitUnit d) = false ∧ digitUnit d ≠ 34 ∧
                digitUnit d ≠ 91 ∧ digitUnit d ≠ 123 ∧ digitUnit d ≠ 110 ∧
                digitUnit d ≠ 116 ∧ digitUnit d ≠ 102 := by decide
            exact ⟨_, _, rfl, hall d hd⟩
    obtain ⟨u, s, heq, hu⟩ := hdecimal
    by_cases hexp : exponent = 0
    · exact ⟨u, s, by rw [numberText, if_pos hexp, heq], hu⟩
    · exact ⟨u, _, by rw [numberText, if_neg hexp, heq, List.cons_append], hu⟩
  obtain ⟨u, s, heq, hblank, h34, h91, h123, h110, h116, h102⟩ := hhead
  rw [heq, List.cons_append, readValue, skip_cons hblank]
  simp [h34, h91, h123, h110, h116, h102]

mutual

theorem readValue_text (j : Json) (fuel : Nat) (rest : CodeUnits)
    (hfuel : 2 * (text j).length ≤ fuel) (hrest : Ends rest) :
    readValue fuel (text j ++ rest) = some (j, rest) := by
  obtain ⟨fuel, rfl⟩ : ∃ n, fuel = n + 1 := by
    have hpos := length_text_pos j
    exact ⟨fuel - 1, by omega⟩
  cases j with
  | null => rfl
  | bool b =>
      cases b with
      | false => rfl
      | true => rfl
  | num mantissa exponent =>
      rw [text, readValue_number]
      exact readNumber_numberText mantissa exponent hrest
  | str s =>
      have hread := readQuoted_quoted s rest
      simp [text, stringText, readValue, skip_cons, isBlank, hread]
  | arr items =>
      have hstart : readValue (fuel + 1) (text (.arr items) ++ rest) =
          readItems fuel (itemsText items ++ rest) := rfl
      rw [hstart]
      rw [text, List.length_cons] at hfuel
      obtain ⟨fuel, rfl⟩ : ∃ n, fuel = n + 1 := ⟨fuel - 1, by omega⟩
      cases items with
      | nil => rfl
      | cons j items =>
          obtain ⟨u, s, heq, hblank, hu⟩ := exists_text_eq j
          have hread := readSomeItems_text (j :: items) fuel rest (by simp) (by omega)
          rw [itemsText, heq, List.cons_append, List.cons_append] at hread ⊢
          rw [readItems, skip_cons hblank]
          simp only [if_neg hu, hread, Option.map_some]
  | obj members =>
      have hstart : readValue (fuel + 1) (text (.obj members) ++ rest) =
          readMembers fuel (membersText members ++ rest) := rfl
      rw [hstart]
      rw [text, List.length_cons] at hfuel
      obtain ⟨fuel, rfl⟩ : ∃ n, fuel = n + 1 := ⟨fuel - 1, by omega⟩
      cases members with
      | nil => rfl
      | cons m members =>
          have hread := readSomeMembers_text (m :: members) fuel rest (by simp) (by omega)
          have hfirst : readMembers (fuel + 1) (membersText (m :: members) ++ rest) =
              (readSomeMembers fuel (membersText (m :: members) ++ rest)).map
                fun (members, s) => (.obj members, s) := rfl
          rw [hfirst, hread]
          rfl

theorem readSomeItems_text (items : List Json) (fuel : Nat) (rest : CodeUnits)
    (hne : items ≠ []) (hfuel : 2 * (itemsText items).length ≤ fuel) :
    readSomeItems fuel (itemsText items ++ rest) = some (items, rest) := by
  cases items with
  | nil => exact absurd rfl hne
  | cons j items =>
      have hpos := length_text_pos j
      have hmore := length_moreItems_pos items
      rw [itemsText, List.length_append] at hfuel
      obtain ⟨fuel, rfl⟩ : ∃ n, fuel = n + 1 := ⟨fuel - 1, by omega⟩
      have hj := readValue_text j fuel (moreItems items ++ rest) (by omega)
        (moreItems_ends items rest)
      rw [itemsText, List.append_assoc, readSomeItems, hj, Option.bind_some]
      cases items with
      | nil => rfl
      | cons next items =>
          rw [moreItems_cons] at hfuel ⊢
          rw [List.length_cons] at hfuel
          have hrest := readSomeItems_text (next :: items) fuel rest (by simp) (by omega)
          rw [List.cons_append]
          dsimp only
          rw [skip_cons (by decide)]
          simp [hrest]

theorem readSomeMembers_text (members : List (CodeUnits × Json)) (fuel : Nat)
    (rest : CodeUnits) (hne : members ≠ [])
    (hfuel : 2 * (membersText members).length ≤ fuel) :
    readSomeMembers fuel (membersText members ++ rest) = some (members, rest) := by
  cases members with
  | nil => exact absurd rfl hne
  | cons m members =>
      obtain ⟨key, j⟩ := m
      rw [membersText, List.length_append, List.length_cons, List.length_append] at hfuel
      obtain ⟨fuel, rfl⟩ : ∃ n, fuel = n + 1 := ⟨fuel - 1, by omega⟩
      have hkey := readQuoted_quoted key (58 :: (text j ++ (moreMembers members ++ rest)))
      have hj := readValue_text j fuel (moreMembers members ++ rest) (by omega)
        (moreMembers_ends members rest)
      have htext : membersText ((key, j) :: members) ++ rest =
          34 :: (quoted key ++ 34 :: 58 :: (text j ++ (moreMembers members ++ rest))) := by
        simp [membersText, stringText]
      rw [htext, readSomeMembers, skip_cons (by decide)]
      simp only [if_true, hkey, Option.bind_some]
      rw [skip_cons (by decide)]
      simp only [if_true, hj, Option.bind_some]
      cases members with
      | nil => rfl
      | cons next members =>
          rw [moreMembers_cons] at hfuel ⊢
          rw [List.length_cons] at hfuel
          have hrest := readSomeMembers_text (next :: members) fuel rest (by simp) (by omega)
          rw [List.cons_append, skip_cons (by decide)]
          simp [hrest]

end

/-- Every value is read back from its text. -/
theorem parse_text (j : Json) : parse (text j) = some j := by
  have hread := readValue_text j (2 * (text j).length + 2) [] (by omega) (by simp [Ends])
  rw [List.append_nil] at hread
  rw [parse, hread]
  rfl

end Values


end Json
