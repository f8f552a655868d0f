/-
Strings by their UTF-16 code units, surrogates alone or in pairs, and their length in UTF-8.
-/
import Mathlib

/-- A string, by its code units. -/
abbrev CodeUnits := List UInt16

def codeUnits (s : String) : CodeUnits := s.toList.map fun c => UInt16.ofNat c.toNat

namespace CodeUnits

def isHigh (u : UInt16) : Bool := decide (0xd800 ≤ u ∧ u ≤ 0xdbff)

def isLow (u : UInt16) : Bool := decide (0xdc00 ≤ u ∧ u ≤ 0xdfff)

/-- The bytes of a code unit outside a surrogate pair; a surrogate alone is encoded as the
replacement character. -/
def unitBytes (u : UInt16) : Nat := if u < 0x80 then 1 else if u < 0x800 then 2 else 3

/-- The length of a string in UTF-8. -/
def byteLength : CodeUnits → Nat
  | [] => 0
  | [u] => unitBytes u
  | u :: v :: s =>
      if isHigh u ∧ isLow v then 4 + byteLength s else unitBytes u + byteLength (v :: s)

def replacement : UInt16 := 0xfffd

/-- What the encoder takes for a code unit outside a surrogate pair. -/
def scalar (u : UInt16) : UInt16 := if isHigh u ∨ isLow u then replacement else u

/-- What the first `n` bytes of a string's encoding decode to; a character cut short is a
replacement. -/
def takeBytes : Nat → CodeUnits → CodeUnits
  | _, [] => []
  | n, [u] =>
      if n = 0 then [] else if unitBytes u ≤ n then [scalar u] else [replacement]
  | n, u :: v :: s =>
      if n = 0 then []
      else if isHigh u ∧ isLow v then
        if 4 ≤ n then u :: v :: takeBytes (n - 4) s else [replacement]
      else if unitBytes u ≤ n then scalar u :: takeBytes (n - unitBytes u) (v :: s)
      else [replacement]

/-- Whether a cut falls between the halves of a surrogate pair. -/
def splitsPair : Nat → CodeUnits → Bool
  | 1, u :: v :: _ => isHigh u && isLow v
  | n + 2, _ :: s => splitsPair (n + 1) s
  | _, _ => false

section Characters

def charUnits (c : Char) : CodeUnits :=
  if c.toNat < 0x10000 then [UInt16.ofNat c.toNat]
  else
    [UInt16.ofNat (0xd800 + (c.toNat - 0x10000) / 0x400),
      UInt16.ofNat (0xdc00 + (c.toNat - 0x10000) % 0x400)]

def ofChars (cs : List Char) : CodeUnits := cs.flatMap charUnits

/-- The length of a text in UTF-8. -/
def bytes (cs : List Char) : Nat := (cs.map Char.utf8Size).sum

@[simp] theorem ofChars_nil : ofChars [] = [] := rfl

@[simp] theorem ofChars_cons (c : Char) (cs : List Char) :
    ofChars (c :: cs) = charUnits c ++ ofChars cs := rfl

@[simp] theorem ofChars_append (a b : List Char) : ofChars (a ++ b) = ofChars a ++ ofChars b :=
  List.flatMap_append

@[simp] theorem bytes_nil : bytes [] = 0 := rfl

@[simp] theorem bytes_cons (c : Char) (cs : List Char) :
    bytes (c :: cs) = c.utf8Size + bytes cs := rfl

@[simp] theorem bytes_append (a b : List Char) : bytes (a ++ b) = bytes a + bytes b := by
  simp [bytes]

/-- A character is one code unit that is no surrogate, or a surrogate pair. -/
theorem charUnits_cases (c : Char) :
    (∃ u, charUnits c = [u] ∧ isHigh u = false ∧ isLow u = false ∧
      unitBytes u = c.utf8Size) ∨
    ∃ u v, charUnits c = [u, v] ∧ isHigh u = true ∧ isLow v = true ∧ c.utf8Size = 4 := by
  have hvalid := c.valid
  have hnat : c.toNat = c.val.toNat := rfl
  simp only [UInt32.isValidChar, Nat.isValidChar] at hvalid
  by_cases hc : c.toNat < 0x10000
  · refine Or.inl ⟨_, if_pos hc, ?_, ?_, ?_⟩
    · simp only [isHigh, decide_eq_false_iff_not, UInt16.le_iff_toNat_le, UInt16.toNat_ofNat']
      rw [Nat.mod_eq_of_lt hc]
      simp
      omega
    · simp only [isLow, decide_eq_false_iff_not, UInt16.le_iff_toNat_le, UInt16.toNat_ofNat']
      rw [Nat.mod_eq_of_lt hc]
      simp
      omega
    · simp only [unitBytes, Char.utf8Size, UInt16.lt_iff_toNat_lt, UInt16.toNat_ofNat',
        UInt32.le_iff_toNat_le]
      rw [Nat.mod_eq_of_lt hc]
      simp
      split_ifs <;> omega
  · refine Or.inr ⟨_, _, if_neg hc, ?_, ?_, ?_⟩
    · simp only [isHigh, decide_eq_true_eq, UInt16.le_iff_toNat_le, UInt16.toNat_ofNat']
      simp
      omega
    · simp only [isLow, decide_eq_true_eq, UInt16.le_iff_toNat_le, UInt16.toNat_ofNat']
      simp
      omega
    · simp only [Char.utf8Size, UInt32.le_iff_toNat_le]
      simp
      split_ifs <;> omega

theorem byteLength_charUnits_append (c : Char) (s : CodeUnits) :
    byteLength (charUnits c ++ s) = c.utf8Size + byteLength s := by
  obtain ⟨u, heq, hhigh, -, hbytes⟩ | ⟨u, v, heq, hhigh, hlow, hbytes⟩ := charUnits_cases c
  · cases s with
    | nil => simp [heq, byteLength, hbytes]
    | cons v s => simp [heq, byteLength, hhigh, hbytes]
  · simp [heq, byteLength, hhigh, hlow, hbytes]

@[simp] theorem byteLength_ofChars (cs : List Char) : byteLength (ofChars cs) = bytes cs := by
  induction cs with
  | nil => rfl
  | cons c cs ih => rw [ofChars_cons, byteLength_charUnits_append, ih, bytes_cons]

theorem utf8Size_pos (c : Char) : c.utf8Size ≠ 0 := Nat.ne_of_gt c.utf8Size_pos

theorem takeBytes_zero (s : CodeUnits) : takeBytes 0 s = [] := by
  cases s with
  | nil => rfl
  | cons u s =>
      cases s with
      | nil => rfl
      | cons v s => simp [takeBytes]

theorem takeBytes_charUnits_append (c : Char) (n : Nat) (s : CodeUnits) :
    takeBytes (c.utf8Size + n) (charUnits c ++ s) = charUnits c ++ takeBytes n s := by
  have hpos := utf8Size_pos c
  obtain ⟨u, heq, hhigh, hlow, hbytes⟩ | ⟨u, v, heq, hhigh, hlow, hbytes⟩ := charUnits_cases c
  · cases s with
    | nil => simp [heq, takeBytes, hbytes, hpos, scalar, hhigh, hlow]
    | cons v s => simp [heq, takeBytes, hbytes, hpos, scalar, hhigh, hlow]
  · simp [heq, takeBytes, hbytes, hhigh, hlow]

/-- A cut at a character's end decodes to the characters before it. -/
theorem takeBytes_ofChars (a b : List Char) :
    takeBytes (bytes a) (ofChars (a ++ b)) = ofChars a := by
  induction a with
  | nil => exact takeBytes_zero _
  | cons c a ih =>
      rw [List.cons_append, ofChars_cons, bytes_cons, takeBytes_charUnits_append, ih,
        ofChars_cons]

theorem splitsPair_succ {n : Nat} (hn : n ≠ 0) (u : UInt16) (s : CodeUnits) :
    splitsPair (n + 1) (u :: s) = splitsPair n s := by
  obtain ⟨n, rfl⟩ := Nat.exists_eq_succ_of_ne_zero hn
  rfl

/-- A cut that splits no pair falls between two characters. -/
theorem exists_cut {cs : List Char} {n : Nat} (hn : n ≤ (ofChars cs).length)
    (hsplit : splitsPair n (ofChars cs) = false) :
    ∃ a b, cs = a ++ b ∧ (ofChars cs).take n = ofChars a ∧ (ofChars cs).drop n = ofChars b := by
  induction cs generalizing n with
  | nil =>
      rw [ofChars_nil, List.length_nil, Nat.le_zero] at hn
      exact ⟨[], [], rfl, by simp [hn], by simp [hn]⟩
  | cons c cs ih =>
      by_cases hzero : n = 0
      · exact ⟨[], c :: cs, rfl, by simp [hzero], by simp [hzero]⟩
      obtain ⟨n, rfl⟩ := Nat.exists_eq_succ_of_ne_zero hzero
      obtain ⟨u, heq, -⟩ | ⟨u, v, heq, hhigh, hlow, -⟩ := charUnits_cases c
      · rw [ofChars_cons, heq, List.singleton_append] at hn hsplit ⊢
        rw [List.length_cons, Nat.succ_le_succ_iff] at hn
        have hrest : splitsPair n (ofChars cs) = false := by
          by_cases hn : n = 0
          · simp [hn, splitsPair]
          · rwa [splitsPair_succ hn] at hsplit
        obtain ⟨a, b, rfl, htake, hdrop⟩ := ih hn hrest
        refine ⟨c :: a, b, rfl, ?_, ?_⟩
        · rw [List.take_succ_cons, htake, ofChars_cons, heq, List.singleton_append]
        · rw [List.drop_succ_cons, hdrop]
      · rw [ofChars_cons, heq, List.cons_append, List.singleton_append] at hn hsplit ⊢
        cases n with
        | zero => simp [splitsPair, hhigh, hlow] at hsplit
        | succ n =>
            simp only [List.length_cons, Nat.succ_le_succ_iff] at hn
            have hrest : splitsPair n (ofChars cs) = false := by
              by_cases hn : n = 0
              · simp [hn, splitsPair]
              · rwa [splitsPair_succ (by omega), splitsPair_succ hn] at hsplit
            obtain ⟨a, b, rfl, htake, hdrop⟩ := ih hn hrest
            refine ⟨c :: a, b, rfl, ?_, ?_⟩
            · rw [List.take_succ_cons, List.take_succ_cons, htake, ofChars_cons, heq]
              rfl
            · rw [List.drop_succ_cons, List.drop_succ_cons, hdrop]

end Characters

end CodeUnits
