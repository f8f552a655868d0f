/-
The lexer for expanded source: one token at a time from the characters left, each
with the number of characters it uses.
-/
import Playground.Frontend.Float
import Playground.Frontend.Sections
import Playground.Machine.Errors

namespace Playground

-- Spellings are compared character by character.
instance lawfulBEq_spelling : LawfulBEq (List Char) := List.instLawfulBEq

def i64Text (value : BitVec 64) : String := toString value.toInt

/-- A token the way it reads in source, for error messages. -/
def describe : TokenKind → String
  | .ident s => "`" ++ s ++ "`"
  | .directiveIdent s => "`" ++ s ++ "`"
  | .intLit v => "`" ++ i64Text v ++ "`"
  | .floatLit bits => "`" ++ String.ofList (F64.display bits) ++ "`"
  | .charLit v => "a character literal ('" ++ String.ofList [Char.ofNat v.toNat] ++ "')"
  | .stringLit _ => "a string literal"
  | .comma => "`,`"
  | .plus => "`+`"
  | .minus => "`-`"
  | .star => "`*`"
  | .slash => "`/`"
  | .percent => "`%`"
  | .amp => "`&`"
  | .pipe => "`|`"
  | .caret => "`^`"
  | .tilde => "`~`"
  | .bang => "`!`"
  | .lShift => "`<<`"
  | .rShift => "`>>`"
  | .lParen => "`(`"
  | .rParen => "`)`"
  | .lBracket => "`[`"
  | .rBracket => "`]`"
  | .lBrace => "`\x7b`"
  | .rBrace => "`\x7d`"
  | .dot => "`.`"
  | .colon => "`:`"
  | .equals => "`=`"
  | .hash => "`#`"

namespace Lexer

def isIdStart (c : Char) : Bool := c.isAlpha || c = '_'

def isIdContinue (c : Char) : Bool := c.isAlpha || c.isDigit || c = '_'

def isHexDigit (c : Char) : Bool :=
  c.isDigit || ('a' ≤ c && c ≤ 'f') || ('A' ≤ c && c ≤ 'F')

def isIntBody (c : Char) : Bool := isHexDigit c || c = 'x' || c = 'X' || c = '_'

def isFloatBody (c : Char) : Bool :=
  c.isDigit || c = '.' || c = 'e' || c = 'E' || c = '+' || c = '-'

def digitValue (c : Char) : Nat :=
  if c.isDigit then c.toNat - '0'.toNat
  else if 'a' ≤ c ∧ c ≤ 'f' then c.toNat - 'a'.toNat + 10
  else if 'A' ≤ c ∧ c ≤ 'F' then c.toNat - 'A'.toNat + 10
  else 16

/-- `u64::from_str_radix`: a plus sign may stand in front, then at least one digit, every
digit below the radix, and a value that fits. -/
def fromStrRadix (radix : Nat) (s : List Char) : Option (BitVec 64) :=
  let digits := match s with
    | '+' :: rest => rest
    | s => s
  if digits.isEmpty ∨ ¬ digits.all (fun c => decide (digitValue c < radix)) then none
  else
    let value := digits.foldl (fun n c => n * radix + digitValue c) 0
    if value < 2 ^ 64 then some (BitVec.ofNat 64 value) else none

def isOctalDigit (c : Char) : Bool := '0' ≤ c && c ≤ '7'

/-- An integer literal, underscores dropped: `0x`, `0b`, a leading zero for octal, or
decimal; 64 bits either way. -/
def parseInt (text : List Char) : Option (BitVec 64) :=
  match text.filter (· ≠ '_') with
  | '0' :: 'x' :: rest => fromStrRadix 16 rest
  | '0' :: 'X' :: rest => fromStrRadix 16 rest
  | '0' :: 'b' :: rest => fromStrRadix 2 rest
  | '0' :: 'B' :: rest => fromStrRadix 2 rest
  | '0' :: c :: rest =>
      if (c :: rest).all isOctalDigit then fromStrRadix 8 (c :: rest) else none
  | digits => fromStrRadix 10 digits

def integerError (text : List Char) : String :=
  let clean := text.filter (· ≠ '_')
  let radixPrefixed : Bool := match clean with
    | '0' :: c :: _ => c = 'x' || c = 'X' || c = 'b' || c = 'B'
    | _ => false
  if 1 < clean.length ∧ clean.head? = some '0' ∧ radixPrefixed = false then
    "invalid integer literal `" ++ String.ofList text ++
    "`: a leading zero means octal, so only the digits 0-7 are allowed. Drop the zero " ++
    "for decimal, or write 0x for hex"
  else "invalid integer literal `" ++ String.ofList text ++ "`"

/-- The bytes of a character. -/
def utf8 (c : Char) : List Byte := (String.utf8EncodeChar c).map fun b => b.toBitVec

def utf8Size (cs : List Char) : Nat := (cs.map Char.utf8Size).sum

/-- The escapes a string and a character literal share; any other letter stands for
itself. -/
def controlEscape (c : Char) : List Byte :=
  if c = 'b' then [0x08]
  else if c = 'f' then [0x0C]
  else if c = 'n' then [0x0A]
  else if c = 'r' then [0x0D]
  else if c = 't' then [0x09]
  else utf8 c

def charEscapeTooLong : String :=
  "expected closing single-quote in char literal: an escape here is one letter, like " ++
  "'\\n'; write any other code as a number (0x41)"

def unterminatedString : String :=
  "unterminated string literal: no closing \" before the end of the line (write \\n for " ++
  "a newline)"

/-- A character literal from its opening quote: the byte, and the characters used.  It
holds one byte, or a backslash and one byte. -/
def parseCharLiteral (s : List Char) (line : Nat) : Except EmuError (BitVec 32 × Nat) :=
  if utf8Size s < 3 then .error (.parseError line "unterminated char literal")
  else
    match s with
    | _ :: '\\' :: c :: rest =>
        match utf8 c, rest with
        | [_], '\'' :: _ => .ok ((controlEscape c).head!.setWidth 32, 4)
        | _, _ => .error (.parseError line charEscapeTooLong)
    | _ :: c :: rest =>
        match utf8 c, rest with
        | [b], '\'' :: _ => .ok (b.setWidth 32, 3)
        | _, _ => .error (.parseError line "expected closing single-quote in char literal")
    | _ => .error (.parseError line "unterminated char literal")

/-- One string escape, after its backslash: the bytes it stands for and the characters
used. -/
def decodeStringEscape (s : List Char) (line : Nat) : Except EmuError (List Byte × Nat) :=
  match s with
  | [] => .error (.parseError line "dangling backslash in literal")
  | c :: rest =>
      if c.isDigit then
        let digits := (s.take 3).takeWhile Char.isDigit
        let value := digits.foldl (fun n d => n * 8 + (d.toNat - '0'.toNat)) 0
        .ok ([BitVec.ofNat 8 value], digits.length)
      else if c = 'v' then .ok ([0x0B], 1)
      else if c = '\n' ∨ c = '\r' then .error (.parseError line unterminatedString)
      else if c = 'x' ∨ c = 'X' then
        let digits := rest.takeWhile isHexDigit
        let value := digits.foldl (fun n d => n * 16 + digitValue d) 0
        .ok ([BitVec.ofNat 8 value], digits.length + 1)
      else .ok (controlEscape c, 1)

/-- The rest of a string literal, up to its closing quote; `skip` characters belong to
an escape already read. -/
def parseStringBody (line : Nat) : Nat → List Char → Except EmuError (List Byte × Nat)
  | _, [] => .error (.parseError line unterminatedString)
  | skip + 1, _ :: rest => do
      let (bytes, used) ← parseStringBody line skip rest
      return (bytes, used + 1)
  | 0, c :: rest =>
      if c = '"' then .ok ([], 1)
      else if c = '\n' ∨ c = '\r' then .error (.parseError line unterminatedString)
      else if c = '\\' then do
        let (out, used) ← decodeStringEscape rest line
        let (bytes, more) ← parseStringBody line used rest
        return (out ++ bytes, more + 1)
      else do
        let (bytes, used) ← parseStringBody line 0 rest
        return (utf8 c ++ bytes, used + 1)

def vectorSuffixes : List (List Char) :=
  ["16b", "8b", "8h", "4h", "4s", "2s", "2d", "1d", "b", "h", "s", "d"].map String.toList

/-- `v` and a number, in either case. -/
def isVectorRegister (name : List Char) : Bool :=
  match name with
  | c :: index => (c = 'v' || c = 'V') && !index.isEmpty && index.all Char.isDigit
  | [] => false

/-- How far a vector register's arrangement or lane reaches past its name. -/
def vectorSuffixLength (name rest : List Char) : Option Nat :=
  match isVectorRegister name, rest with
  | true, '.' :: rest =>
      match vectorSuffixes.find? fun s =>
          decide ((rest.take s.length).map Char.toLower = s) with
      | none => none
      | some s =>
          if 1 < s.length then some (1 + s.length)
          else
            match rest.drop s.length with
            | '[' :: rest =>
                let digits := rest.takeWhile Char.isDigit
                if digits.isEmpty ∨ (rest.drop digits.length).head? ≠ some ']' then none
                else some (1 + s.length + 1 + digits.length + 1)
            | _ => none
  | _, _ => none

/-- The dotted tail a symbol may carry (`count.0`); `skip` says that the character at
hand follows a dot and is known to belong to it. -/
def dottedTail : Bool → List Char → Nat
  | true, _ :: rest => dottedTail false rest + 1
  | false, '.' :: c :: rest =>
      if isIdContinue c then dottedTail true (c :: rest) + 1 else 0
  | false, c :: rest => if isIdContinue c then dottedTail false rest + 1 else 0
  | _, [] => 0

/-- How long the identifier at the front is. -/
def identLength (s : List Char) : Nat :=
  let name := s.takeWhile isIdContinue
  let rest := s.dropWhile isIdContinue
  match vectorSuffixLength name rest with
  | some n => name.length + n
  | none => if isVectorRegister name then name.length else name.length + dottedTail false rest

/-- How long the exponent of a float is: an `e`, an optional sign and digits. -/
def exponentLength : List Char → Nat
  | c :: rest =>
      if c = 'e' ∨ c = 'E' then
        let sign := match rest with
          | d :: _ => if d = '+' ∨ d = '-' then 1 else 0
          | [] => 0
        let digits := ((rest.drop sign).takeWhile Char.isDigit).length
        if digits = 0 then 0 else 1 + sign + digits
      else 0
  | [] => 0

/-- An integer-looking run that is really an exponent float, `1e5`. -/
def isExponential (text : List Char) : Bool :=
  let isE (c : Char) : Bool := c = 'e' || c = 'E'
  let mantissa := text.takeWhile fun c => !isE c
  match text.dropWhile fun c => !isE c with
  | _ :: digits => !mantissa.isEmpty && mantissa.all Char.isDigit && digits.all Char.isDigit
  | [] => false

/-- A numeric literal, and the characters it uses. -/
def parseNumber (s : List Char) (line : Nat) : Except EmuError (TokenKind × Nat) :=
  let float (message : String) (text : List Char) (used : Nat) :
      Except EmuError (TokenKind × Nat) :=
    match F64.parse text with
    | some bits => .ok (.floatLit bits, used)
    | none => .error (.parseError line (message ++ String.ofList text ++ "`"))
  let integer (text : List Char) : Except EmuError (TokenKind × Nat) :=
    match parseInt text with
    | some value => .ok (.intLit value, text.length)
    | none => .error (.parseError line (integerError text))
  match s with
  | '0' :: 'r' :: rest =>
      let text := rest.takeWhile isFloatBody
      float "invalid 0r float literal `" text (text.length + 2)
  | '0' :: 'R' :: rest =>
      let text := rest.takeWhile isFloatBody
      float "invalid 0r float literal `" text (text.length + 2)
  | s =>
      let text := s.takeWhile isIntBody
      let rest := s.dropWhile isIntBody
      let fraction := match rest with
        | '.' :: rest => (rest.takeWhile Char.isDigit).length
        | _ => 0
      if text.all Char.isDigit ∧ fraction ≠ 0 then
        let used := text.length + 1 + fraction
        let used := used + exponentLength (s.drop used)
        float "invalid float literal `" (s.take used) used
      else if isExponential text then
        let used := match text.getLast?, rest with
          | some e, c :: rest =>
              if (e = 'e' ∨ e = 'E') ∧ (c = '+' ∨ c = '-') then
                let digits := (rest.takeWhile Char.isDigit).length
                if digits = 0 then text.length else text.length + 1 + digits
              else text.length
          | _, _ => text.length
        match F64.parse (s.take used) with
        | some bits => .ok (.floatLit bits, used)
        | none => integer (s.take used)
      else integer text

def singleChar : Char → Option TokenKind
  | ',' => some .comma
  | '+' => some .plus
  | '-' => some .minus
  | '*' => some .star
  | '/' => some .slash
  | '%' => some .percent
  | '&' => some .amp
  | '|' => some .pipe
  | '^' => some .caret
  | '~' => some .tilde
  | '!' => some .bang
  | '(' => some .lParen
  | ')' => some .rParen
  | '[' => some .lBracket
  | ']' => some .rBracket
  | '{' => some .lBrace
  | '}' => some .rBrace
  | ':' => some .colon
  | '=' => some .equals
  | '#' => some .hash
  | _ => none

/-- What a pasted character is called in its error. -/
def pastedName (c : Char) : String :=
  if c.toNat = 0xA0 then " (non-breaking space)"
  else if c.toNat = 0x2018 ∨ c.toNat = 0x2019 then " (curly single quote)"
  else if c.toNat = 0x201C ∨ c.toNat = 0x201D then " (curly double quote)"
  else if c.toNat = 0x2013 then " (en dash)"
  else if c.toNat = 0x2014 then " (em dash)"
  else if c.toNat = 0x200B then " (zero-width space)"
  else if c.toNat = 0xFEFF then " (byte-order mark)"
  else ""

/-- `{:04X}`. -/
def hexUpper4 (n : Nat) : String :=
  let digits := (Nat.toDigits 16 n).map Char.toUpper
  String.ofList (List.replicate (4 - digits.length) '0' ++ digits)

/-- The token at the front, which is neither a blank nor a newline, and the characters
it uses. -/
def nextToken (c : Char) (rest : List Char) (line col : Nat) :
    Except EmuError (TokenKind × Nat) :=
  match singleChar c with
  | some kind => .ok (kind, 1)
  | none =>
      if c = '<' then
        if rest.head? = some '<' then .ok (.lShift, 2)
        else .error (.parseError line "unexpected '<' (did you mean '<<'?)")
      else if c = '>' then
        if rest.head? = some '>' then .ok (.rShift, 2)
        else .error (.parseError line "unexpected '>' (did you mean '>>'?)")
      else if c = '.' then
        let sized := ["2byte", "4byte", "8byte"].any fun d => d.toList.isPrefixOf rest
        if rest.head?.any isIdStart || sized then
          let name := rest.takeWhile isIdContinue
          .ok (.directiveIdent (String.ofList ('.' :: name)), name.length + 1)
        else .ok (.dot, 1)
      else if c.isDigit then parseNumber (c :: rest) line
      else if c = '\'' then do
        let (value, used) ← parseCharLiteral (c :: rest) line
        return (.charLit value, used)
      else if c = '"' then do
        let (bytes, used) ← parseStringBody line 0 rest
        return (.stringLit bytes, used + 1)
      else if isIdStart c then
        let n := identLength (c :: rest)
        .ok (.ident (String.ofList ((c :: rest).take n)), n)
      else if c = '@' ∧ rest.head?.any isIdStart then
        let name := rest.takeWhile isIdContinue
        .ok (.ident (String.ofList ('@' :: name)), name.length + 1)
      else if 0x80 ≤ c.toNat then
        .error (.parseError line ("column " ++ toString col ++ ": non-ASCII character U+" ++
          hexUpper4 c.toNat ++ pastedName c ++ ". Retype this line; pasting from a PDF or " ++
          "web page often inserts invisible characters"))
      else
        .error (.parseError line ("unexpected character `" ++ String.ofList [c] ++
          "` here: a line starts with a label, a directive, or a mnemonic, and comments " ++
          "start with // or ;"))

/-- Lex the characters left.  `skip` of them belong to the token read last; columns
count bytes. -/
def lexFrom : Nat → List Char → Nat → Nat → Except EmuError (List Token)
  | _, [], _, _ => .ok []
  | skip + 1, c :: rest, line, col => lexFrom skip rest line (col + c.utf8Size)
  | 0, c :: rest, line, col =>
      if c = '\n' then lexFrom 0 rest (line + 1) 1
      else if c = '\r' ∨ c = ' ' ∨ c = '\t' then lexFrom 0 rest line (col + 1)
      else do
        let (kind, used) ← nextToken c rest line col
        let tokens ← lexFrom (used - 1) rest line (col + c.utf8Size)
        return ⟨kind, line, col⟩ :: tokens

end Lexer

/-- Lex a source string whose first line has number `startingLine`. -/
def lex (source : String) (startingLine : Nat) : Except EmuError (List Token) :=
  Lexer.lexFrom 0 source.toList startingLine 1

example : (lex ". - msg+1" 3).map (·.map Token.kind) =
    .ok [.dot, .minus, .ident "msg", .plus, .intLit 1] := by decide

end Playground
