/-
What the linker recognises in an instruction's tokens before it encodes them: the two
literal loads `ldr reg, =expr` and `ldr reg, label`, and calls that may go to the host.
-/
import Playground.Frontend.Lexer

namespace Playground

def lowerAscii (s : String) : List Char := s.toList.map Char.toLower

/-- `eq_ignore_ascii_case` against a lower-case word. -/
def isWord (s : String) (word : List Char) : Bool := decide (lowerAscii s = word)

/-- `str::parse::<u8>`. -/
def parseU8 (digits : List Char) : Option Nat :=
  if digits.isEmpty ∨ ¬ digits.all Char.isDigit then none
  else
    let value := F64.digitsValue digits
    if value < 256 then some value else none

/-- The register names without a letter and a number. -/
def regAliases : List (List Char × Nat × Bool) :=
  [(['s', 'p'], 31, true), (['x', 'z', 'r'], 31, true), (['w', 'z', 'r'], 31, false),
    (['f', 'p'], 29, true), (['l', 'r'], 30, true)]

/-- A register alias: its number, and whether it is the 64-bit view. -/
def regAlias (lower : List Char) : Option (Nat × Bool) :=
  (regAliases.find? fun entry => entry.1 = lower).map Prod.snd

def shiftKeywords : List (List Char) :=
  [['l', 's', 'l'], ['l', 's', 'r'], ['a', 's', 'r'], ['r', 'o', 'r'],
    ['s', 'x', 't', 'w'], ['s', 'x', 't', 'x'], ['u', 'x', 't', 'w'], ['u', 'x', 't', 'x'],
    ['s', 'x', 't', 'b'], ['s', 'x', 't', 'h'], ['u', 'x', 't', 'b'], ['u', 'x', 't', 'h']]

/-- A vector register with its arrangement or lane, `v0.16b`. -/
def isVectorOperand (lower : List Char) : Bool :=
  match lower.takeWhile (· ≠ '.'), lower.dropWhile (· ≠ '.') with
  | 'v' :: index, _ :: tail => !tail.isEmpty && !index.isEmpty && index.all Char.isDigit
  | _, _ => false

def isNumberedRegister (lower : List Char) : Bool :=
  match lower with
  | c :: rest =>
      decide (c ∈ ['x', 'w', 'v', 'd', 's', 'q', 'h', 'b']) &&
        (decide (rest = ['z', 'r']) || (!rest.isEmpty && rest.all Char.isDigit))
  | [] => false

def isRegisterOrShiftKeyword (text : List Char) : Bool :=
  let lower := text.map Char.toLower
  isVectorOperand lower || isNumberedRegister lower || (regAlias lower).isSome ||
    decide (lower ∈ shiftKeywords)

/-- One byte of a string literal as the linker writes it back. -/
def requoteByte (b : Byte) : List Char :=
  if b = 0x22 then ['\\', '"']
  else if b = 0x5C then ['\\', '\\']
  else if 0x20 ≤ b ∧ b ≤ 0x7E then [Char.ofNat b.toNat]
  else
    let digits := Nat.toDigits 8 b.toNat
    '\\' :: (List.replicate (3 - digits.length) '0' ++ digits)

def tokenText : TokenKind → List Char
  | .ident s => s.toList
  | .directiveIdent s => s.toList
  | .intLit v => (i64Text v).toList
  | .floatLit bits => F64.display bits
  | .charLit v => Nat.toDigits 10 v.toNat
  | .stringLit bytes => '"' :: (bytes.flatMap requoteByte ++ ['"'])
  | .comma => [',']
  | .plus => ['+']
  | .minus => ['-']
  | .star => ['*']
  | .slash => ['/']
  | .percent => ['%']
  | .amp => ['&']
  | .pipe => ['|']
  | .caret => ['^']
  | .tilde => ['~']
  | .bang => ['!']
  | .lShift => ['<', '<']
  | .rShift => ['>', '>']
  | .lParen => ['(']
  | .rParen => [')']
  | .lBracket => ['[']
  | .rBracket => [']']
  | .lBrace => ['\x7b']
  | .rBrace => ['\x7d']
  | .colon => [':']
  | .equals => ['=']
  | .dot => ['.']
  | .hash => ['#']

/-- Unicode white space, which `trim` removes. -/
def isSpace (c : Char) : Bool :=
  let n := c.toNat
  decide (9 ≤ n ∧ n ≤ 13) || n = 0x20 || n = 0x85 || n = 0xA0 || n = 0x1680 ||
    decide (0x2000 ≤ n ∧ n ≤ 0x200A) || n = 0x2028 || n = 0x2029 || n = 0x202F ||
    n = 0x205F || n = 0x3000

def trimStart (s : List Char) : List Char := s.dropWhile isSpace

def trim (s : List Char) : List Char := ((trimStart s).reverse.dropWhile isSpace).reverse

/-- Whether a blank follows a token in the written-back text. -/
def spaced (braceDepth : Nat) (kind : TokenKind) (next : Option TokenKind) : Bool :=
  let opens := kind = .lBracket || kind = .lBrace
  let closesNext := next = some .rBracket || next = some .rBrace || next = some .comma
  let insideList := decide (0 < braceDepth) && !decide (kind = .comma)
  let laneIndexNext := kind = .rBrace && next = some .lBracket
  !opens && !closesNext && !insideList && !laneIndexNext

def stringifyFrom : Nat → List Token → List Char
  | _, [] => []
  | braceDepth, t :: rest =>
      let braceDepth := match t.kind with
        | .lBrace => braceDepth + 1
        | .rBrace => braceDepth - 1
        | _ => braceDepth
      tokenText t.kind ++
        (if spaced braceDepth t.kind (rest.head?.map Token.kind) then [' '] else []) ++
        stringifyFrom braceDepth rest

/-- Tokens back to source text. -/
def stringifyTokens (tokens : List Token) : String :=
  String.ofList (trim (stringifyFrom 0 tokens))

/-- The key of an `ldr reg, =expr` and whether the expression names `.`. -/
def extractLdrEqOperand (tokens : List Token) : Option (String × Bool) :=
  match tokens with
  | ⟨.ident mn, _, _⟩ :: _ =>
      if 4 ≤ tokens.length ∧ isWord mn ['l', 'd', 'r'] then
        match tokens.dropWhile fun t => t.kind ≠ .comma with
        | _ :: ⟨.equals, _, _⟩ :: operand =>
            some (stringifyTokens operand, operand.any fun t => t.kind = .dot)
        | _ => none
      else none
  | _ => none

/-- The destination of an `ldr reg, label`, by register class. -/
inductive LdrDest
  | gpr (idx : Nat)
  | fp
deriving DecidableEq, Repr

def parseLdrDest (reg : String) : Option LdrDest :=
  match reg.toList with
  | [] => none
  | c :: rest =>
      match parseU8 rest with
      | none => none
      | some idx =>
          let c := c.toLower
          if (c = 'x' ∨ c = 'w') ∧ idx ≤ 30 then some (.gpr idx)
          else if c ∈ ['b', 'h', 's', 'd', 'q'] ∧ idx ≤ 31 then some .fp
          else none

def startsLabel : TokenKind → Bool
  | .ident name => !isRegisterOrShiftKeyword name.toList
  | .directiveIdent _ => true
  | _ => false

/-- The `ldr reg, label` form (no brackets, no `=`, no `#`): the destination and the
label's text. -/
def extractLdrLabelLoad (tokens : List Token) : Option (String × String) :=
  match tokens with
  | ⟨.ident mn, _, _⟩ :: ⟨.ident reg, _, _⟩ :: ⟨.comma, _, _⟩ :: first :: rest =>
      let tail := first :: rest
      if isWord mn ['l', 'd', 'r'] ∧ startsLabel first.kind ∧
          tail.all (fun t => t.kind ≠ .lBracket ∧ t.kind ≠ .equals ∧ t.kind ≠ .hash) ∧
          (parseLdrDest reg).isSome then
        some (reg, stringifyTokens tail)
      else none
  | _ => none

/-- The register of an `ldr reg, =expr` and whether it is the 64-bit view. -/
def parseLdrEqRt (tokens : List Token) (line : Nat) : Except EmuError (Nat × Bool) :=
  match tokens with
  | _ :: ⟨.ident reg, _, _⟩ :: _ =>
      let index (digits : List Char) (sf : Bool) : Except EmuError (Nat × Bool) :=
        match parseU8 digits with
        | none => .error (.assemblyError line ("bad register index in `" ++ reg ++ "`"))
        | some idx =>
            if 31 < idx then
              .error (.assemblyError line ("`" ++ reg ++
                "` is not a register; the register file runs x0-x30 (plus xzr/sp)"))
            else .ok (idx, sf)
      match reg.toList with
      | c :: digits =>
          if c.toUpper = 'X' then index digits true
          else if c.toUpper = 'W' then index digits false
          else .error (.assemblyError line
            ("`ldr " ++ reg ++ ", =...` needs an x or w register"))
      | [] => .error (.assemblyError line
          ("`ldr " ++ reg ++ ", =...` needs an x or w register"))
  | _ => .error (.assemblyError line "expected register after LDR")

/-- The target of `bl name`, or with `tail` also of `b name`. -/
def extractCallTarget (tokens : List Token) (tail : Bool) : Option String :=
  match tokens with
  | ⟨.ident mn, _, _⟩ :: ⟨.ident name, _, _⟩ :: _ =>
      if isWord mn ['b', 'l'] || (tail && isWord mn ['b']) then some name else none
  | _ => none

def extractBlTarget (tokens : List Token) : Option String := extractCallTarget tokens false

def trampolineLabel (name : String) : String := "__tramp_" ++ name

/-- Point a call at its trampoline when its target has one. -/
def redirectBlToTrampolineTokens (tokens : List Token) (hasTrampoline : String → Bool) :
    List Token × Bool :=
  match extractCallTarget tokens true, tokens with
  | some name, mnemonic :: target :: rest =>
      if hasTrampoline name then
        (mnemonic :: { target with kind := .ident (trampolineLabel name) } :: rest, true)
      else (tokens, false)
  | _, _ => (tokens, false)

/-- Whether an address lies in the host-stub range. -/
def isHostAddress (addr : Word) : Bool :=
  decide (0xFFFF0000 ≤ addr.toNat) && decide (addr.toNat < 0xFFFF0000 + 0x10000)

end Playground
