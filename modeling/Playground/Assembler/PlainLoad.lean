/-
The line `ldr reg, [xN]`, which the linker writes for a load from a label: whatever register
it names, the encoder gives the load of that register through xN.
-/
import Playground.Assembler.Line
import Playground.Isa.LoadWords

namespace Playground

namespace Assembler

/-- The tables of the vector encoders do not have `ldr`. -/
structure VectorEncoders.LeavesLoads (vec : VectorEncoders) : Prop where
  integer : vec.knowsInteger ['l', 'd', 'r'] = false
  float : vec.knowsFloat ['l', 'd', 'r'] = false

/-- A register as a load names it. -/
inductive LoadView
  | gpr (idx : Nat) (sf : Bool)
  | fp (idx : Nat) (width : FpWidth)
deriving DecidableEq, Repr

namespace LoadView

def bytes : LoadView → Nat
  | gpr _ sf => if sf then 8 else 4
  | fp _ width => width.memSize.bytes

/-- The whole register a view is part of. -/
def read (r : RegisterFile) : LoadView → Nat
  | gpr idx _ => (r.gprValue idx true).toNat
  | fp idx _ => (r.fpr (Fin.ofNat 32 idx)).toNat

/-- The word that loads the register through `[x<rn>]`. -/
def loadWord (rn : Nat) : LoadView → BitVec 32
  | gpr idx sf => ldstScaledWord (if sf then 0b11 else 0b10) 1 0 rn idx
  | fp idx width => fpScaledWord width.sizeField (width.opcHigh * 2 + 1) 0 rn idx

end LoadView

def fpLetters : List (Char × FpWidth) :=
  [('b', .b), ('h', .h), ('s', .s), ('d', .d), ('q', .q)]

/-- The register a destination's text names. -/
def loadView (reg : String) : Option LoadView :=
  match reg.toList with
  | [] => none
  | c :: digits =>
      match parseU8 digits with
      | none => none
      | some idx =>
          if c.toLower = 'x' ∧ idx ≤ 30 then some (.gpr idx true)
          else if c.toLower = 'w' ∧ idx ≤ 30 then some (.gpr idx false)
          else if idx ≤ 31 then (fpLetters.lookup c.toLower).map (.fp idx)
          else none

variable {c : Char} {view : LoadView} {digits : List Char}

theorem trim_eq_self {s : List Char} (hfirst : ∀ c ∈ s.head?, isSpace c = false)
    (hlast : ∀ c ∈ s.getLast?, isSpace c = false) : trim s = s := by
  have hdrop : ∀ s : List Char, (∀ c ∈ s.head?, isSpace c = false) → s.dropWhile isSpace = s := by
    intro s hs
    cases s with
    | nil => rfl
    | cons c s => simp [List.dropWhile, hs c rfl]
  unfold trim trimStart
  rw [hdrop s hfirst, hdrop s.reverse (by simpa using hlast), List.reverse_reverse]

/-- A character no operand split stops at. -/
def IsPlain (c : Char) : Prop :=
  c ≠ '\'' ∧ c ≠ '[' ∧ c ≠ '\x7b' ∧ c ≠ ']' ∧ c ≠ '\x7d' ∧ c ≠ ',' ∧ isSpace c = false

instance (c : Char) : Decidable (IsPlain c) :=
  inferInstanceAs (Decidable (_ ∧ _))

/-- Plain characters join the piece being read. -/
theorem splitOperandsFrom_plain {word : List Char} (h : ∀ c ∈ word, IsPlain c) (depth : Int)
    (piece rest : List Char) :
    splitOperandsFrom 0 depth piece (word ++ rest) =
      splitOperandsFrom 0 depth (word.reverse ++ piece) rest := by
  induction word generalizing piece with
  | nil => rfl
  | cons c word ih =>
      obtain ⟨hquote, hopen, hbrace, hclose, hbrace', hcomma, -⟩ := h c List.mem_cons_self
      have hrest := ih (fun c hc => h c (List.mem_cons_of_mem _ hc)) (c :: piece)
      simp only [List.cons_append, splitOperandsFrom, hquote, hopen, hbrace, hclose, hbrace',
        hcomma, if_false, false_and, or_self, ne_eq, not_true_eq_false, List.reverse_cons,
        List.append_assoc]
      exact hrest

theorem digit_cases (h : c.isDigit = true) :
    c ∈ ['0', '1', '2', '3', '4', '5', '6', '7', '8', '9'] := by
  have hrange : 48 ≤ c.toNat ∧ c.toNat ≤ 57 := by
    simpa [Char.isDigit, UInt32.le_iff_toNat_le] using h
  have hc : c = Char.ofNat c.toNat := (Char.ofNat_toNat c).symm
  generalize c.toNat = n at hrange hc
  subst hc
  obtain ⟨hlo, hhi⟩ := hrange
  interval_cases n <;> decide

/-- A letter in either case. -/
theorem toLower_cases {d : Char} (h : c.toLower = d) : c = d ∨ c = Char.ofNat (d.toNat - 32) := by
  by_cases hrange : 65 ≤ c.toNat ∧ c.toNat ≤ 90
  · right
    have hc : c = Char.ofNat c.toNat := (Char.ofNat_toNat c).symm
    generalize c.toNat = n at hrange hc
    subst hc h
    obtain ⟨hlo, hhi⟩ := hrange
    interval_cases n <;> decide
  · left
    rw [← h]
    unfold Char.toLower
    rw [dif_neg]
    simpa [UInt32.le_iff_toNat_le] using hrange

def LoadView.letters : LoadView → List Char
  | gpr _ true => ['x', 'X']
  | gpr _ false => ['w', 'W']
  | fp _ .b => ['b', 'B']
  | fp _ .h => ['h', 'H']
  | fp _ .s => ['s', 'S']
  | fp _ .d => ['d', 'D']
  | fp _ .q => ['q', 'Q']

/-- The number of a view's register is one the encoder takes. -/
def LoadView.Fits : LoadView → Prop
  | gpr idx _ => idx ≤ 30
  | fp idx _ => idx ≤ 31

def LoadView.idx : LoadView → Nat
  | gpr idx _ => idx
  | fp idx _ => idx

/-- The letter and the digits of a destination. -/
theorem loadView_cases {reg : String} (h : loadView reg = some view) :
    ∃ c digits, reg.toList = c :: digits ∧ parseU8 digits = some view.idx ∧
      c ∈ view.letters ∧ view.Fits := by
  unfold loadView at h
  split at h
  · cases h
  · rename_i c digits hreg
    split at h
    · cases h
    · rename_i idx hidx
      refine ⟨c, digits, hreg, ?_⟩
      split at h
      · rename_i hx
        cases h
        exact ⟨hidx, by simpa [LoadView.letters] using toLower_cases hx.1, hx.2⟩
      · split at h
        · rename_i hw
          cases h
          exact ⟨hidx, by simpa [LoadView.letters] using toLower_cases hw.1, hw.2⟩
        · split at h
          · rename_i hle
            obtain ⟨width, hwidth, rfl⟩ := Option.map_eq_some_iff.mp h
            refine ⟨hidx, ?_, hle⟩
            have hletter : (c.toLower, width) ∈ fpLetters := by
              obtain ⟨before, after, hsplit, -⟩ := List.lookup_eq_some_iff.mp hwidth
              simp [hsplit]
            simp only [fpLetters, List.mem_cons, Prod.mk.injEq, List.not_mem_nil, or_false]
              at hletter
            rcases hletter with ⟨hc, rfl⟩ | ⟨hc, rfl⟩ | ⟨hc, rfl⟩ | ⟨hc, rfl⟩ | ⟨hc, rfl⟩ <;>
              simpa [LoadView.letters] using toLower_cases hc
          · cases h

theorem digitValue_of_isDigit (h : c.isDigit = true) :
    Lexer.digitValue c = c.toNat - '0'.toNat ∧ Lexer.digitValue c < 10 := by
  have hc := digit_cases h
  simp only [List.mem_cons, List.not_mem_nil, or_false] at hc
  rcases hc with rfl | rfl | rfl | rfl | rfl | rfl | rfl | rfl | rfl | rfl <;> decide

/-- Both readers of a decimal number agree on digits. -/
theorem foldl_digitValue (h : ∀ c ∈ digits, c.isDigit = true) (n : Nat) :
    digits.foldl (fun n c => n * 10 + Lexer.digitValue c) n =
      digits.foldl (fun n c => n * 10 + (c.toNat - '0'.toNat)) n := by
  induction digits generalizing n with
  | nil => rfl
  | cons c digits ih =>
      simp only [List.foldl_cons]
      rw [(digitValue_of_isDigit (h c List.mem_cons_self)).1]
      exact ih (fun c hc => h c (List.mem_cons_of_mem _ hc)) _

/-- A number of decimal digits is read as its value. -/
theorem parseUnsigned_of_digits (hne : digits ≠ [])
    (hall : ∀ c ∈ digits, c.isDigit = true) (limit : Nat) :
    parseUnsigned 10 limit digits =
      if F64.digitsValue digits < limit then some (F64.digitsValue digits) else none := by
  have hbelow : digits.all (fun c => decide (Lexer.digitValue c < 10)) = true := by
    rw [List.all_eq_true]
    intro c hc
    simpa using (digitValue_of_isDigit (hall c hc)).2
  have hvalue := foldl_digitValue hall 0
  unfold parseUnsigned
  split
  · exact absurd (hall '+' List.mem_cons_self) (by decide)
  · simp only
    rw [if_neg (by simp [hne, hbelow]), hvalue]
    rfl

theorem parseU8_cases {idx : Nat} (h : parseU8 digits = some idx) :
    digits ≠ [] ∧ (∀ c ∈ digits, c.isDigit = true) ∧ parseUnsigned 10 256 digits = some idx := by
  unfold parseU8 at h
  split at h
  · cases h
  · rename_i hdigits
    have hne : digits ≠ [] := by
      rintro rfl
      simp at hdigits
    have hall : ∀ c ∈ digits, c.isDigit = true := by
      intro c hc
      by_contra hnot
      apply hdigits
      right
      intro hall
      exact hnot (List.all_eq_true.mp hall c hc)
    refine ⟨hne, hall, ?_⟩
    rw [parseUnsigned_of_digits hne hall]
    exact h
/-- Digits have no upper case. -/
theorem toUppercase_digits {digits : List Char} (h : ∀ c ∈ digits, c.isDigit = true) :
    toUppercase digits = digits := by
  induction digits with
  | nil => rfl
  | cons c digits ih =>
      have hc := digit_cases (h c List.mem_cons_self)
      have hupper : upperChar c = [c] := by
        simp only [List.mem_cons, List.not_mem_nil, or_false] at hc
        rcases hc with rfl | rfl | rfl | rfl | rfl | rfl | rfl | rfl | rfl | rfl <;> decide
      have hrest := ih fun c hc => h c (List.mem_cons_of_mem _ hc)
      rw [toUppercase] at hrest ⊢
      rw [List.flatMap_cons, hupper, hrest]
      rfl

/-- A letter and a number is no alias. -/
theorem regAlias_digits (c : Char) (hne : digits ≠ [])
    (h : ∀ c ∈ digits, c.isDigit = true) : regAlias (c :: lowerAsciiChars digits) = none := by
  cases digits with
  | nil => exact absurd rfl hne
  | cons d digits =>
      have hd := digit_cases (h d List.mem_cons_self)
      simp only [List.mem_cons, List.not_mem_nil, or_false] at hd
      rcases hd with rfl | rfl | rfl | rfl | rfl | rfl | rfl | rfl | rfl | rfl <;>
        simp [regAlias, regAliases, lowerAsciiChars]

theorem isPlain_digit (h : c.isDigit = true) : IsPlain c := by
  have hc := digit_cases h
  simp only [List.mem_cons, List.not_mem_nil, or_false] at hc
  rcases hc with rfl | rfl | rfl | rfl | rfl | rfl | rfl | rfl | rfl | rfl <;> decide

/-- The operand `[x<rn>]`. -/
def baseOperand (rn : Nat) : List Char := '[' :: 'x' :: ((toString rn).toList ++ [']'])

theorem parseAddressingMode_base {rn : Nat} (hrn : rn ≤ 30) (line : Nat) :
    parseAddressingMode (baseOperand rn) line = .ok (.immediate rn none .unsigned) := by
  interval_cases rn <;> rfl

theorem trim_base {rn : Nat} (hrn : rn ≤ 30) : trim (baseOperand rn) = baseOperand rn := by
  interval_cases rn <;> rfl

theorem splitOperandsFrom_base {rn : Nat} (hrn : rn ≤ 30) :
    splitOperandsFrom 0 0 [] (' ' :: baseOperand rn) = [baseOperand rn] := by
  interval_cases rn <;> rfl

theorem findEncoder_ldr (vec : VectorEncoders) (pc : Word) (labels : SymbolTable) :
    findEncoder (dataProcessing vec ++ loadsAndStores ++ control pc labels) ['L', 'D', 'R'] =
      some fun ops => encodeLdst ops 1 0b11 := by
  have hfirst : (dataProcessing vec).find? (fun row => decide (row.1.toList = ['L', 'D', 'R'])) =
      none := by
    simp [dataProcessing]
  simp [findEncoder, List.find?_append, hfirst, loadsAndStores]

theorem isPlain_letter (hc : c ∈ view.letters) : IsPlain c := by
  rcases view with ⟨idx, _ | _⟩ | ⟨idx, _ | _ | _ | _ | _⟩ <;>
    simp only [LoadView.letters, List.mem_cons, List.not_mem_nil, or_false] at hc <;>
    rcases hc with rfl | rfl <;> decide

/-- A letter and a number are plain. -/
theorem isPlain_reg (hc : c ∈ view.letters)
    (hdigits : ∀ d ∈ digits, d.isDigit = true) : ∀ d ∈ c :: digits, IsPlain d := by
  intro d hd
  rcases List.mem_cons.mp hd with rfl | hd
  · exact isPlain_letter hc
  · exact isPlain_digit (hdigits d hd)

theorem trim_plain {s : List Char} (h : ∀ c ∈ s, IsPlain c) : trim s = s := by
  apply trim_eq_self
  · intro c hc
    exact (h c (List.mem_of_mem_head? hc)).2.2.2.2.2.2
  · intro c hc
    exact (h c (List.mem_of_mem_getLast? hc)).2.2.2.2.2.2

/-- The two operands of the line. -/
theorem splitOperands_load {s : List Char} (h : ∀ c ∈ s, IsPlain c) {rn : Nat} (hrn : rn ≤ 30) :
    splitOperands (s ++ ',' :: ' ' :: baseOperand rn) = [s, baseOperand rn] := by
  have hcomma : ∀ piece rest, splitOperandsFrom 0 0 piece (',' :: rest) =
      trim piece.reverse :: splitOperandsFrom 0 0 [] rest := by
    intro piece rest
    simp [splitOperandsFrom]
  rw [splitOperands, splitOperandsFrom_plain h, hcomma, splitOperandsFrom_base hrn,
    List.append_nil, List.reverse_reverse, trim_plain h]

theorem splitMnemonic_load {s : List Char} (hne : s ≠ []) (h : ∀ c ∈ s, IsPlain c) (rn : Nat) :
    splitMnemonic ('l' :: 'd' :: 'r' :: ' ' :: (s ++ ',' :: ' ' :: baseOperand rn)) =
      (['l', 'd', 'r'], s ++ ',' :: ' ' :: baseOperand rn) := by
  have hlast : ∀ s : List Char, ∀ c ∈ (s ++ baseOperand rn).getLast?, isSpace c = false := by
    intro s c hc
    have hbracket : (s ++ baseOperand rn).getLast? = some ']' := by
      simp [baseOperand, List.getLast?_append, List.getLast?_cons]
    rw [hbracket] at hc
    cases hc
    decide
  have hline : trim ('l' :: 'd' :: 'r' :: ' ' :: (s ++ ',' :: ' ' :: baseOperand rn)) =
      'l' :: 'd' :: 'r' :: ' ' :: (s ++ ',' :: ' ' :: baseOperand rn) := by
    apply trim_eq_self
    · intro c hc
      cases hc
      decide
    · have hend := hlast ('l' :: 'd' :: 'r' :: ' ' :: (s ++ [',', ' ']))
      simpa using hend
  have hoperands : trim (' ' :: (s ++ ',' :: ' ' :: baseOperand rn)) =
      s ++ ',' :: ' ' :: baseOperand rn := by
    have hspace : trim (' ' :: (s ++ ',' :: ' ' :: baseOperand rn)) =
        trim (s ++ ',' :: ' ' :: baseOperand rn) := rfl
    rw [hspace]
    apply trim_eq_self
    · intro c hc
      cases s with
      | nil => exact absurd rfl hne
      | cons d s =>
          cases hc
          exact (h c List.mem_cons_self).2.2.2.2.2.2
    · have hend := hlast (s ++ [',', ' '])
      simpa using hend
  have hl : isSpace 'l' = false := by decide
  have hd : isSpace 'd' = false := by decide
  have hr : isSpace 'r' = false := by decide
  have hblank : isSpace ' ' = true := by decide
  unfold splitMnemonic
  simp only [hline, List.takeWhile_cons, List.dropWhile_cons, hl, hd, hr, hblank, Bool.not_false,
    Bool.not_true, if_true, Bool.false_eq_true, if_false, hoperands]

/-- A general register's text. -/
theorem parseRegister_load {idx : Nat} {sf : Bool}
    (hc : c ∈ (LoadView.gpr idx sf).letters) (hidx : parseU8 digits = some idx) (hle : idx ≤ 30)
    (line : Nat) : parseRegister (c :: digits) line = .ok (idx, sf) := by
  obtain ⟨hne, hdigits, hvalue⟩ := parseU8_cases hidx
  have hletter : upperChar c = [if sf then 'X' else 'W'] := by
    cases sf <;> simp only [LoadView.letters, List.mem_cons, List.not_mem_nil, or_false] at hc <;>
      rcases hc with rfl | rfl <;> decide
  have hupper : toUppercase (c :: digits) = (if sf then 'X' else 'W') :: digits := by
    rw [toUppercase, List.flatMap_cons, ← toUppercase, toUppercase_digits hdigits, hletter]
    rfl
  have halias : regAlias (lowerAsciiChars ((if sf then 'X' else 'W') :: digits)) = none :=
    regAlias_digits _ hne hdigits
  have hnot : ¬ 30 < idx := by omega
  unfold parseRegister
  simp only [trim_plain (isPlain_reg hc hdigits), hupper, halias]
  cases sf <;> simp [hvalue, hnot]

theorem fromLetter_gpr {idx : Nat} {sf : Bool}
    (hc : c ∈ (LoadView.gpr idx sf).letters) : FpWidth.fromLetter c = none := by
  cases sf <;> simp only [LoadView.letters, List.mem_cons, List.not_mem_nil, or_false] at hc <;>
    rcases hc with rfl | rfl <;> decide

theorem fromLetter_fp {idx : Nat} {width : FpWidth}
    (hc : c ∈ (LoadView.fp idx width).letters) : FpWidth.fromLetter c = some width := by
  cases width <;> simp only [LoadView.letters, List.mem_cons, List.not_mem_nil, or_false] at hc <;>
    rcases hc with rfl | rfl <;> decide

/-- The load of a register through xN. -/
theorem encodeLdst_load {rn : Nat}
    (hc : c ∈ view.letters) (hidx : parseU8 digits = some view.idx) (hfits : view.Fits)
    (hrn : rn ≤ 30) (line : Nat) :
    encodeLdst [c :: digits, baseOperand rn] 1 0b11 line = .ok (view.loadWord rn) := by
  obtain ⟨-, hdigits, hvalue⟩ := parseU8_cases hidx
  have hplain := isPlain_reg hc hdigits
  have hops : ¬ [c :: digits, baseOperand rn].length < 2 := by simp
  have hfirst : operand [c :: digits, baseOperand rn] 0 = c :: digits := rfl
  have haddress : trim (joinAddress ([c :: digits, baseOperand rn].drop 1)) = baseOperand rn :=
    trim_base hrn
  unfold encodeLdst
  rw [if_neg hops, hfirst, trim_plain hplain]
  rcases view with ⟨idx, sf⟩ | ⟨idx, width⟩
  · rw [if_neg (by simp [fromLetter_gpr hc]), haddress, parseRegister_load hc hidx hfits,
      parseAddressingMode_base hrn]
    cases sf <;> rfl
  · have hle : idx ≤ 31 := hfits
    have hwidth := fromLetter_fp hc
    have hvalue : parseUnsigned 10 256 digits = some idx := hvalue
    have hregister : parseFpRegister (c :: digits) line = .ok (idx, width) := by
      unfold parseFpRegister
      simp only [trim_plain hplain, hwidth, hvalue]
      rw [if_neg (by omega)]
    rw [if_pos (by simp [hwidth])]
    unfold encodeLdstFp
    rw [hfirst, hregister, haddress, parseAddressingMode_base hrn]
    cases width <;> rfl

/-- `ldr reg, [xN]` is the load of `reg` through xN. -/
theorem encodeLine_load {vec : VectorEncoders} (hvec : vec.LeavesLoads) {reg : String}
    (hview : loadView reg = some view) {rn : Nat} (hrn : rn ≤ 30) (pc : Word)
    (labels : SymbolTable) (line : Nat) :
    encodeLine vec ("ldr " ++ reg ++ ", [x" ++ toString rn ++ "]").toList pc labels line =
      .ok (view.loadWord rn) := by
  obtain ⟨c, digits, hreg, hidx, hc, hfits⟩ := loadView_cases hview
  obtain ⟨-, hdigits, -⟩ := parseU8_cases hidx
  have hplain := isPlain_reg hc hdigits
  rw [← hreg] at hplain
  have hne : reg.toList ≠ [] := by simp [hreg]
  have htext : ("ldr " ++ reg ++ ", [x" ++ toString rn ++ "]").toList =
      'l' :: 'd' :: 'r' :: ' ' :: (reg.toList ++ ',' :: ' ' :: baseOperand rn) := by
    simp [baseOperand]
  have hupper : toUppercase ['l', 'd', 'r'] = ['L', 'D', 'R'] := by decide
  have hlower : lowerAsciiChars ['L', 'D', 'R'] = ['l', 'd', 'r'] := by decide
  have hbranch : bcondCondition ['L', 'D', 'R'] = none := rfl
  have hinteger : ∀ ops, isSimdIntegerLine vec ['L', 'D', 'R'] ops = false := by
    intro ops
    simp [isSimdIntegerLine, hlower, hvec.integer]
  have hfloat : ∀ ops, isSimdFloatLine vec ['L', 'D', 'R'] ops = false := by
    intro ops
    simp [isSimdFloatLine, hlower, hvec.float]
  have hnonempty : ¬ (reg.toList ++ ',' :: ' ' :: baseOperand rn).isEmpty = true := by simp
  rw [htext]
  unfold encodeLine
  rw [splitMnemonic_load hne hplain rn]
  simp only
  rw [if_neg hnonempty, splitOperands_load hplain hrn, hupper]
  unfold encodeOps
  rw [hbranch, hinteger, hfloat, findEncoder_ldr]
  simp only [Bool.false_eq_true, if_false]
  rw [hreg]
  exact encodeLdst_load hc hidx hfits hrn line

/-- The register an `ldr reg, label` holds the address in. -/
def LoadView.base : LoadView → Nat
  | gpr idx _ => idx
  | fp _ _ => 16

theorem LoadView.base_lt (h : view.Fits) : view.base < 31 := by
  cases view with
  | gpr idx sf => exact Nat.lt_succ_of_le h
  | fp idx width => exact (by decide : 16 < 31)

/-- The address register of a destination. -/
def destBase : LdrDest → Nat
  | .gpr idx => idx
  | .fp => 16

theorem addressRegister_of_dest {reg : String} {dest : LdrDest}
    (h : parseLdrDest reg = some dest) (line : Nat) :
    Emit.addressRegister reg line = .ok (destBase dest) := by
  unfold Emit.addressRegister
  rw [h]
  cases dest <;> rfl

/-- Every destination the linker takes is a register the encoder takes. -/
theorem loadView_of_parseLdrDest {reg : String} {dest : LdrDest}
    (h : parseLdrDest reg = some dest) :
    ∃ view, loadView reg = some view ∧ view.base = destBase dest := by
  unfold parseLdrDest at h
  unfold loadView
  rcases hreg : reg.toList with _ | ⟨c, digits⟩
  · simp only [hreg] at h
    cases h
  · rcases hidx : parseU8 digits with _ | idx
    · simp only [hreg, hidx] at h
      cases h
    · simp only [hreg, hidx] at h
      simp only [hidx]
      split at h
      · rename_i hgpr
        cases h
        rcases hgpr with ⟨hx | hw, hle⟩
        · exact ⟨.gpr idx true, by rw [if_pos ⟨hx, hle⟩], rfl⟩
        · refine ⟨.gpr idx false, ?_, rfl⟩
          rw [if_neg (by simp [hw]), if_pos ⟨hw, hle⟩]
      · split at h
        · rename_i hfp
          cases h
          obtain ⟨hletter, hle⟩ := hfp
          generalize c.toLower = letter at hletter
          simp only [List.mem_cons, List.not_mem_nil, or_false] at hletter
          have hother : letter ≠ 'x' ∧ letter ≠ 'w' := by
            rcases hletter with rfl | rfl | rfl | rfl | rfl <;> decide
          obtain ⟨width, hwidth⟩ : ∃ width, fpLetters.lookup letter = some width := by
            rcases hletter with rfl | rfl | rfl | rfl | rfl <;> exact ⟨_, rfl⟩
          refine ⟨.fp idx width, ?_, rfl⟩
          rw [if_neg (by simp [hother.1]), if_neg (by simp [hother.2]), if_pos hle, hwidth]
          rfl
        · cases h

end Assembler

end Playground
