/-
Operand parsing shared by the encoders: the mnemonic and operand split, registers,
immediates, conditions, shift and extend modifiers, and addresses.
-/
import Playground.Frontend.Literals
import Playground.Isa.Decode

namespace Playground

namespace Assembler

variable {α : Type}

def asmErr (line : Nat) (message : String) : Except EmuError α :=
  .error (.assemblyError line message)

/-- A character's upper case.  Of the letters outside ASCII only these become ASCII;
the others match nothing in upper case either and are left as they are. -/
def upperChar (c : Char) : List Char :=
  if c.toNat = 0x131 then ['I']
  else if c.toNat = 0x17F then ['S']
  else if c.toNat = 0xDF then ['S', 'S']
  else if c.toNat = 0xFB00 then ['F', 'F']
  else if c.toNat = 0xFB01 then ['F', 'I']
  else if c.toNat = 0xFB02 then ['F', 'L']
  else if c.toNat = 0xFB03 then ['F', 'F', 'I']
  else if c.toNat = 0xFB04 then ['F', 'F', 'L']
  else if c.toNat = 0xFB05 ∨ c.toNat = 0xFB06 then ['S', 'T']
  else [c.toUpper]

/-- `str::to_uppercase`. -/
def toUppercase (s : List Char) : List Char := s.flatMap upperChar

/-- `to_ascii_uppercase`. -/
def upperAscii (s : List Char) : List Char := s.map Char.toUpper

/-- `to_ascii_lowercase`. -/
def lowerAsciiChars (s : List Char) : List Char := s.map Char.toLower

/-- A character's lower case: the Kelvin sign and the dotted capital I become ASCII
letters, the latter with a dot above it. -/
def lowerChar (c : Char) : List Char :=
  if c.toNat = 0x212A then ['k']
  else if c.toNat = 0x130 then ['i', Char.ofNat 0x307]
  else [c.toLower]

/-- `str::to_lowercase`, for the label tables. -/
def toLowercase (s : List Char) : List Char := s.flatMap lowerChar

/-- `strip_prefix`. -/
def stripStart (pattern s : List Char) : Option (List Char) :=
  if pattern.isPrefixOf s then some (s.drop pattern.length) else none

/-- The mnemonic and the rest of a line. -/
def splitMnemonic (line : List Char) : List Char × List Char :=
  let line := trim line
  (line.takeWhile fun c => !isSpace c, trim (line.dropWhile fun c => !isSpace c))

/-- The pieces between commas outside brackets and braces.  A character literal's comma
is a value; `skip` characters belong to one. -/
def splitOperandsFrom : Nat → Int → List Char → List Char → List (List Char)
  | _, _, piece, [] =>
      let last := trim piece.reverse
      if last.isEmpty then [] else [last]
  | skip + 1, depth, piece, c :: rest => splitOperandsFrom skip depth (c :: piece) rest
  | 0, depth, piece, c :: rest =>
      let literal := if c = '\'' then
          match Lexer.parseCharLiteral (c :: rest) 0 with
          | .ok (_, used) => used
          | .error _ => 0
        else 0
      if literal ≠ 0 then splitOperandsFrom (literal - 1) depth (c :: piece) rest
      else if c = '[' ∨ c = '\x7b' then splitOperandsFrom 0 (depth + 1) (c :: piece) rest
      else if c = ']' ∨ c = '\x7d' then splitOperandsFrom 0 (depth - 1) (c :: piece) rest
      else if c = ',' ∧ depth = 0 then trim piece.reverse :: splitOperandsFrom 0 depth [] rest
      else splitOperandsFrom 0 depth (c :: piece) rest

def splitOperands (s : List Char) : List (List Char) := splitOperandsFrom 0 0 [] s

/-- `from_str_radix` of an unsigned type: a plus sign may stand in front, and the value
has to fit. -/
def parseUnsigned (radix limit : Nat) (s : List Char) : Option Nat :=
  let digits := match s with
    | '+' :: rest => rest
    | s => s
  if digits.isEmpty ∨ ¬ digits.all (fun c => decide (Lexer.digitValue c < radix)) then none
  else
    let value := digits.foldl (fun n c => n * radix + Lexer.digitValue c) 0
    if value < limit then some value else none

/-- A register: its number and whether it is the 64-bit view. -/
def parseRegister (s : List Char) (line : Nat) : Except EmuError (Nat × Bool) :=
  let original := trim s
  let upper := toUppercase original
  let numbered (digits : List Char) (sf : Bool) : Except EmuError (Nat × Bool) :=
    match parseUnsigned 10 256 digits with
    | none => asmErr line ("invalid register: " ++ String.ofList upper)
    | some num =>
        if 30 < num then
          asmErr line ("`" ++ String.ofList upper ++ "` is not a register: the " ++
            "general-purpose registers are x0 through x30 (or w0 through w30), plus " ++
            "xzr/wzr and sp")
        else .ok (num, sf)
  match regAlias (lowerAsciiChars upper) with
  | some found => .ok found
  | none =>
      match upper with
      | 'X' :: digits => numbered digits true
      | 'W' :: digits => numbered digits false
      | _ => asmErr line ("expected a register here, got `" ++ String.ofList original ++ "`")

/-- What stands between the quotes of a character literal: one byte, or a backslash and
one byte. -/
def parseCharBody (body : List Char) (line : Nat) : Except EmuError Word :=
  match body with
  | [] => asmErr line "empty char literal"
  | ['\\'] => asmErr line "dangling backslash in char literal"
  | ['\\', c] =>
      if c.utf8Size = 1 then
        .ok (((Lexer.controlEscape c).headD 0).setWidth 64)
      else asmErr line Lexer.charEscapeTooLong
  | '\\' :: _ => asmErr line Lexer.charEscapeTooLong
  | [c] =>
      if c.utf8Size = 1 then .ok (((Lexer.utf8 c).headD 0).setWidth 64)
      else asmErr line "char literal must be one character"
  | _ => asmErr line "char literal must be one character"

/-- The text between single quotes, when a text is one. -/
def quoted (s : List Char) : Option (List Char) :=
  match s with
  | '\'' :: body => if body.getLast? = some '\'' then some body.dropLast else none
  | _ => none

/-- The magnitude of an immediate: hexadecimal, binary, octal by a leading zero, or
decimal. -/
def parseMagnitude (s : List Char) (line : Nat) : Except EmuError Word :=
  let number (value : Option Nat) (message : String) : Except EmuError Word :=
    match value with
    | some v => .ok (BitVec.ofNat 64 v)
    | none => asmErr line message
  let quote := "`" ++ String.ofList s ++ "`"
  match s with
  | '0' :: 'x' :: hex | '0' :: 'X' :: hex =>
      number (parseUnsigned 16 (2 ^ 64) hex) (quote ++ " is not a valid hex number: hex " ++
        "literals are 0x followed by hex digits")
  | '0' :: 'b' :: bin | '0' :: 'B' :: bin =>
      number (parseUnsigned 2 (2 ^ 64) bin) (quote ++ " is not a valid binary number: " ++
        "binary literals are 0b followed by 0s and 1s")
  | s =>
      if 1 < s.length ∧ s.head? = some '0' ∧ s.all Char.isDigit then
        match Lexer.parseInt s with
        | some v => .ok v
        | none => asmErr line (Lexer.integerError s)
      else
        number (parseUnsigned 10 (2 ^ 64) s) (quote ++ " is not a number the assembler can " ++
          "read here: write decimal as 42, hex as 0x2a, binary as 0b101010, and a " ++
          "character as 'a'")

def stripHash (s : List Char) : List Char :=
  match s with
  | '#' :: rest => rest
  | s => s

/-- An immediate as an `i64`; negation wraps. -/
def parseImmediate (s : List Char) (line : Nat) : Except EmuError Word :=
  let s := trim (stripHash (trim s))
  match quoted s with
  | some body => parseCharBody body line
  | none =>
      match s with
      | '-' :: magnitude => do return -(← parseMagnitude magnitude line)
      | s => parseMagnitude s line

/-- Whether an operand opens like a number or a character. -/
def opensImmediate (op : List Char) : Bool :=
  match op with
  | c :: _ => c = '#' || c = '\'' || c = '-' || c.isDigit
  | [] => false

/-- Whether an operand opens like a number, with no sign. -/
def opensAmount (op : List Char) : Bool :=
  match op with
  | c :: _ => c = '#' || c.isDigit
  | [] => false

def opensNumber (op : List Char) : Bool :=
  match op with
  | c :: _ => c = '#' || c = '-' || c.isDigit
  | [] => false

/-- Condition spellings: the primary, its aliases and its number. -/
def conditionRows : List (String × List String × Nat) :=
  [("EQ", [], 0b0000), ("NE", [], 0b0001), ("HS", ["CS"], 0b0010), ("LO", ["CC"], 0b0011),
    ("MI", [], 0b0100), ("PL", [], 0b0101), ("VS", [], 0b0110), ("VC", [], 0b0111),
    ("HI", [], 0b1000), ("LS", [], 0b1001), ("GE", [], 0b1010), ("LT", [], 0b1011),
    ("GT", [], 0b1100), ("LE", [], 0b1101), ("AL", [], 0b1110)]

/-- Look an upper-case condition spelling up. -/
def conditionBits (name : List Char) : Option Nat :=
  conditionRows.findSome? fun row =>
    if row.1.toList = name ∨ name ∈ row.2.1.map String.toList then some row.2.2 else none

/-- The spellings, for the message. -/
def conditionCodeList : String :=
  let lower (s : String) : String := String.ofList (s.toList.map Char.toLower)
  let names := conditionRows.map fun row =>
    "/".intercalate ((row.1 :: row.2.1).map lower)
  match names.getLast? with
  | some last => ", ".intercalate names.dropLast ++ ", and " ++ last
  | none => ""

def parseCondition (s : List Char) (line : Nat) : Except EmuError Nat :=
  match conditionBits (toUppercase (trim s)) with
  | some bits => .ok bits
  | none => asmErr line ("unknown condition code `" ++ String.ofList s ++
      "`: the codes are " ++ conditionCodeList)

def parseConditionAllowingNv (s : List Char) (line : Nat) : Except EmuError Nat :=
  if upperAscii (trim s) = ['N', 'V'] then .ok 0b1111 else parseCondition s line

/-- The condition of a conditional branch's mnemonic, `B.<cc>` or `B<cc>`. -/
def bcondCondition (mn : List Char) : Option Nat :=
  match mn with
  | 'B' :: '.' :: tail => if tail = ['N', 'V'] then some 0b1111 else conditionBits tail
  | 'B' :: tail => conditionBits tail
  | _ => none

def outOfRange (what : String) (amount : Word) (regSize : Nat) : String :=
  what ++ " amount " ++ i64Text amount ++ " is out of range for a " ++ toString regSize ++
  "-bit register (valid: 0-" ++ toString (regSize - 1) ++ ")"

/-- The shift keyword a modifier opens with, and the text after it. -/
def shiftKeyword (upper : List Char) : Option (Nat × List Char) :=
  match upper with
  | 'L' :: 'S' :: 'L' :: rest => some (0b00, rest)
  | 'L' :: 'S' :: 'R' :: rest => some (0b01, rest)
  | 'A' :: 'S' :: 'R' :: rest => some (0b10, rest)
  | 'R' :: 'O' :: 'R' :: rest => some (0b11, rest)
  | _ => none

/-- A trailing shift modifier, `lsl #3`.  ADD and SUB have no ROR. -/
def parseShiftModifier (op : List Char) (regSize : Nat) (allowRor : Bool) (line : Nat) :
    Except EmuError (Nat × Nat) :=
  let t := trim op
  match shiftKeyword (toUppercase t) with
  | none => asmErr line ("expected a shift modifier like `lsl #3` as the last operand, got `" ++
      String.ofList t ++ "`")
  | some (shiftBits, rest) =>
      if shiftBits = 0b11 ∧ allowRor = false then
        asmErr line "ROR is not a valid shift for ADD/SUB/CMP/CMN"
      else do
        let amt ← parseImmediate (trim rest) line
        if amt.toInt < 0 ∨ (regSize : Int) ≤ amt.toInt then
          asmErr line (outOfRange "shift" amt regSize)
        else return (shiftBits, amt.toNat)

/-- The extend keywords of ADD and SUB, in `option` order. -/
def extendKeywords : List (List Char × Nat) :=
  [(['U', 'X', 'T', 'B'], 0b000), (['U', 'X', 'T', 'H'], 0b001), (['U', 'X', 'T', 'W'], 0b010),
    (['U', 'X', 'T', 'X'], 0b011), (['S', 'X', 'T', 'B'], 0b100), (['S', 'X', 'T', 'H'], 0b101),
    (['S', 'X', 'T', 'W'], 0b110), (['S', 'X', 'T', 'X'], 0b111)]

/-- A trailing extend modifier: its `option` field and the text of its amount. -/
def parseExtendModifier (op : List Char) : Option (Nat × List Char) :=
  let t := trim op
  extendKeywords.findSome? fun row =>
    match stripStart row.1 (upperAscii t) with
    | none => none
    | some rest =>
        match rest with
        | [] => some (row.2, t.drop row.1.length)
        | c :: _ =>
            if c = ' ' ∨ c = '\t' ∨ c = '#' then some (row.2, t.drop row.1.length) else none

/-- The addressing mode of an address with an immediate offset. -/
inductive AddressMode
  | unsigned | preIndex | postIndex
deriving DecidableEq, Repr

/-- A parsed address. -/
inductive AddressingMode
  | immediate (rn : Nat) (offset : Option Word) (mode : AddressMode)
  | regOffset (rn rm option : Nat) (shiftAmount : Option Word)
deriving DecidableEq, Repr

/-- Looser than `parseRegister`: `x99` and `q0` read as registers too. -/
def looksLikeRegister (s : List Char) : Bool :=
  let lower := lowerAsciiChars (trim s)
  (regAlias lower).isSome || isNumberedRegister lower

/-- What one token of an address is. -/
inductive TokKind
  | lBracket | rBracket | comma | bang | reg | imm | keyword
deriving DecidableEq, Repr

/-- A token and the characters it covers. -/
structure Tok where
  kind : TokKind
  start : Nat
  stop : Nat
deriving DecidableEq, Repr

def structuralKind (c : Char) : Option TokKind :=
  if c = '[' then some .lBracket
  else if c = ']' then some .rBracket
  else if c = ',' then some .comma
  else if c = '!' then some .bang
  else none

def classifyWord (word : List Char) : TokKind :=
  if looksLikeRegister word then .reg
  else if opensImmediate word then .imm
  else .keyword

/-- The tokens of an address, from character `i` on; `skip` characters belong to the
word read last. -/
def tokenizeFrom : Nat → Nat → List Char → List Tok
  | _, _, [] => []
  | skip + 1, i, _ :: rest => tokenizeFrom skip (i + 1) rest
  | 0, i, c :: rest =>
      if isSpace c then tokenizeFrom 0 (i + 1) rest
      else
        match structuralKind c with
        | some kind => ⟨kind, i, i + 1⟩ :: tokenizeFrom 0 (i + 1) rest
        | none =>
            let word := rest.takeWhile fun c => !isSpace c && (structuralKind c).isNone
            ⟨classifyWord (c :: word), i, i + 1 + word.length⟩ ::
              tokenizeFrom word.length (i + 1) rest

def tokenizeAddress (s : List Char) : List Tok := tokenizeFrom 0 0 s

/-- The characters from `lo` up to `hi`. -/
def slice (s : List Char) (lo hi : Nat) : List Char := (s.drop lo).take (hi - lo)

/-- The pieces of `[lo, hi)` between commas, `limit` of them at most; the last keeps its
commas. -/
def commaSegments (lo hi : Nat) : Nat → Nat → List Tok → List (Nat × Nat)
  | start, _, [] => [(start, hi)]
  | start, limit, tok :: toks =>
      if tok.kind ≠ .comma ∨ tok.start < lo ∨ hi < tok.stop then
        commaSegments lo hi start limit toks
      else if limit ≤ 1 then [(start, hi)]
      else (start, tok.start) :: commaSegments lo hi tok.stop (limit - 1) toks

def splitExtendKeyword (s : List Char) : List Char × List Char :=
  let s := trim s
  (s.takeWhile fun c => !isSpace c, s.dropWhile fun c => !isSpace c)

/-- `[Xn, (Wm|Xm) (, LSL|UXTW|SXTW|SXTX #<amount>)?]`, from its pieces. -/
def parseRegOffset (parts : List (List Char)) (line : Nat) :
    Except EmuError AddressingMode := do
  let (rn, _) ← parseRegister (parts.getD 0 []) line
  let (rm, rmIsX) ← parseRegister (parts.getD 1 []) line
  match parts[2]? with
  | none =>
      if rmIsX then return .regOffset rn rm 0b011 none
      else asmErr line ("a W index register needs an extend keyword: write [Xn, Wm, uxtw] " ++
        "or [Xn, Wm, sxtw]")
  | some modifier =>
      let (keyword, amount) := splitExtendKeyword modifier
      let lower := lowerAsciiChars keyword
      match ldstExtends.find? fun row => row.1 = lower with
      | none => asmErr line ("bad extend/shift keyword: " ++ String.ofList keyword)
      | some (_, option, needsX) =>
          if lower = ['u', 'x', 't', 'x'] then
            asmErr line "an address cannot use uxtx: write lsl, as in [x0, x1, lsl #3]"
          else if needsX = false ∧ rmIsX = true then
            asmErr line "UXTW/SXTW require a W index register"
          else if needsX = true ∧ rmIsX = false then
            asmErr line "LSL/SXTX require an X index register"
          else if (trim amount).isEmpty then
            if option = 0b011 then
              asmErr line "lsl needs its amount: write lsl #0, or the scale, as in lsl #3"
            else return .regOffset rn rm option none
          else do
            let shift ← parseImmediate amount line
            return .regOffset rn rm option (some shift)

/-- `[Xn, #imm]!`. -/
def parsePreIndex (s : List Char) (toks : List Tok) (line : Nat) :
    Except EmuError AddressingMode :=
  match toks.head?, toks.dropLast.getLast? with
  | some first, some close =>
      if toks.length < 3 ∨ first.kind ≠ .lBracket ∨ close.kind ≠ .rBracket then
        asmErr line "expected [Xn, #imm]!"
      else do
        let parts := (commaSegments first.stop close.start first.stop 2 toks).map fun seg =>
          slice s seg.1 seg.2
        let (rn, _) ← parseRegister (parts.getD 0 []) line
        match parts[1]? with
        | none => return .immediate rn (some 0) .preIndex
        | some text => return .immediate rn (some (← parseImmediate text line)) .preIndex
  | _, _ => asmErr line "expected [Xn, #imm]!"

/-- The tokens from the closing bracket on. -/
def fromClose (toks : List Tok) : List Tok := toks.dropWhile fun t => t.kind ≠ .rBracket

/-- `[Xn], #imm`; `next` follows the closing bracket. -/
def parsePostIndex (s : List Char) (innerLo innerHi : Nat) (next : Tok) (line : Nat) :
    Except EmuError AddressingMode := do
  let (rn, _) ← parseRegister (trim (slice s innerLo innerHi)) line
  if next.kind ≠ .comma then asmErr line "post-index needs a comma: [Xn], #imm"
  else return .immediate rn (some (← parseImmediate (trim (s.drop next.stop)) line)) .postIndex

/-- Whether a piece of an address is one register and nothing else. -/
def isRegisterPiece (toks : List Tok) (seg : Nat × Nat) : Bool :=
  match toks.filter fun t => decide (seg.1 ≤ t.start) && decide (t.stop ≤ seg.2) with
  | [t] => decide (t.kind = .reg)
  | _ => false

/-- `[Xn]`, `[Xn, #imm]` or `[Xn, Xm, ...]`. -/
def parsePlainAddress (s : List Char) (toks : List Tok) (innerLo innerHi line : Nat) :
    Except EmuError AddressingMode :=
  let segments := commaSegments innerLo innerHi innerLo 3 toks
  let parts := segments.map fun seg => slice s seg.1 seg.2
  if (segments[1]?).any (isRegisterPiece toks) then parseRegOffset parts line
  else do
    let (rn, _) ← parseRegister (parts.getD 0 []) line
    match parts with
    | [_, text] => return .immediate rn (some (← parseImmediate text line)) .unsigned
    | _ :: _ :: _ =>
        asmErr line "unexpected third operand in the address: the immediate form is [Xn, #imm]"
    | _ => return .immediate rn none .unsigned

/-- A load or store address, its form chosen by the shape of its tokens. -/
def parseAddressingMode (s : List Char) (line : Nat) : Except EmuError AddressingMode :=
  let s := trim s
  let toks := tokenizeAddress s
  if (toks.getLast?).any fun t => decide (t.kind = .bang) then parsePreIndex s toks line
  else
    match toks with
    | [] => asmErr line "expected [ for addressing mode"
    | first :: _ =>
        if first.kind ≠ .lBracket then asmErr line "expected [ for addressing mode"
        else
          match fromClose toks with
          | [] => asmErr line "invalid addressing mode"
          | [close] => parsePlainAddress s toks first.stop close.start line
          | close :: next :: _ => parsePostIndex s first.stop close.start next line

def joinAddress : List (List Char) → List Char
  | [] => []
  | [s] => s
  | s :: rest => s ++ ',' :: joinAddress rest

end Assembler

end Playground
