/-
Constant expressions for the parser and the linker, on `i64` with wrapping arithmetic.
An unknown symbol is an error rather than a guess, so that the linker can retry it once
every label is placed.
-/
import Playground.Frontend.Lexer

namespace Playground

namespace Expr

/-- Nesting ceiling for parentheses and stacked unary operators. -/
def maxExprDepth : Nat := 128

/-- A value and the tokens after it. -/
abbrev Parse := List Token → Except EmuError (Word × List Token)

/-- A binary operator of one precedence level. -/
abbrev BinaryOp := Word → Word → Except EmuError Word

/-- `operand (op operand)*` from a left operand on; `n` bounds the operators. -/
def chain (operand : Parse) (op : TokenKind → Option BinaryOp) :
    Nat → Word → List Token → Except EmuError (Word × List Token)
  | n + 1, left, tok :: rest =>
      match op tok.kind with
      | none => .ok (left, tok :: rest)
      | some f => do
          let (right, toks) ← operand rest
          let left ← f left right
          chain operand op n left toks
  | _, left, toks => .ok (left, toks)

def level (operand : Parse) (op : TokenKind → Option BinaryOp) : Parse := fun toks => do
  let (left, toks) ← operand toks
  chain operand op toks.length left toks

def orOp : TokenKind → Option BinaryOp
  | .pipe => some fun a b => .ok (a ||| b)
  | _ => none

def xorOp : TokenKind → Option BinaryOp
  | .caret => some fun a b => .ok (a ^^^ b)
  | _ => none

def andOp : TokenKind → Option BinaryOp
  | .amp => some fun a b => .ok (a &&& b)
  | _ => none

/-- The amount of a shift is checked; a right shift keeps the sign. -/
def shiftOp (line : Nat) : TokenKind → Option BinaryOp
  | .lShift => some fun a b =>
      if b.toNat < 64 then .ok (a <<< b.toNat)
      else .error (.parseError line "shift amount out of range")
  | .rShift => some fun a b =>
      if b.toNat < 64 then .ok (a.sshiftRight b.toNat)
      else .error (.parseError line "shift amount out of range")
  | _ => none

def addOp : TokenKind → Option BinaryOp
  | .plus => some fun a b => .ok (a + b)
  | .minus => some fun a b => .ok (a - b)
  | _ => none

def mulOp (line : Nat) : TokenKind → Option BinaryOp
  | .star => some fun a b => .ok (a * b)
  | .slash => some fun a b =>
      if b = 0 then .error (.parseError line "division by zero in expression")
      else .ok (a.sdiv b)
  | .percent => some fun a b =>
      if b = 0 then .error (.parseError line "modulo by zero in expression")
      else .ok (a.srem b)
  | _ => none

def parseMul (line : Nat) (unary : Parse) : Parse := level unary (mulOp line)

def parseAdd (line : Nat) (unary : Parse) : Parse := level (parseMul line unary) addOp

def parseShift (line : Nat) (unary : Parse) : Parse :=
  level (parseAdd line unary) (shiftOp line)

def parseAnd (line : Nat) (unary : Parse) : Parse := level (parseShift line unary) andOp

def parseXor (line : Nat) (unary : Parse) : Parse := level (parseAnd line unary) xorOp

def parseOr (line : Nat) (unary : Parse) : Parse := level (parseXor line unary) orOp

def unknownSymbol (name : String) : String :=
  "`" ++ name ++ "` is not defined anywhere in this program: check the spelling against " ++
  "the label or the `name = value` line that defines it. m4 substitution is whole-token " ++
  "and case-sensitive"

def nestsTooDeeply : String :=
  "expression nests too deeply (more than " ++ toString maxExprDepth ++
  " levels of parentheses or unary operators)"

/-- Why a token cannot start an expression. -/
def unexpected (kind : TokenKind) : String :=
  "unexpected " ++ describe kind ++ " in this expression" ++
  match kind with
  | .hash => ". Values in data directives are written without the #"
  | .stringLit _ => ". Text belongs in .string or .asciz, not a numeric directive"
  | _ => ""

section
variable (resolve : String → Option Word) (here : Word) (line : Nat)

/-- A symbol's value at the front of the tokens. -/
def parseSymbol (name : String) (tokLine : Nat) (rest : List Token) :
    Except EmuError (Word × List Token) :=
  match resolve name with
  | some value => .ok (value, rest)
  | none => .error (.parseError tokLine (unknownSymbol name))

/-- The end of a parenthesis. -/
def parseClose (tokLine : Nat) : Word × List Token → Except EmuError (Word × List Token)
  | (value, ⟨.rParen, _, _⟩ :: rest) => .ok (value, rest)
  | _ => .error (.parseError tokLine "expected closing paren")

/-- A literal, a symbol or `.`. -/
def parsePrimary (tok : Token) (rest : List Token) : Except EmuError (Word × List Token) :=
  match tok.kind with
  | .intLit v => .ok (v, rest)
  | .charLit v => .ok (v.setWidth 64, rest)
  | .floatLit _ =>
      .error (.parseError tok.line "float literal in integer expression (use it inside .double)")
  | .dot => .ok (here, rest)
  | .ident name => parseSymbol resolve name tok.line rest
  | .directiveIdent name => parseSymbol resolve name tok.line rest
  | kind => .error (.parseError tok.line (unexpected kind))

/-- A unary operator, a parenthesis or a primary; `depth` levels of nesting are left. -/
def parseUnary (depth : Nat) (toks : List Token) : Except EmuError (Word × List Token) :=
  match toks with
  | [] => .error (.parseError line "expected an expression, found end of input")
  | tok :: rest =>
      match tok.kind, depth with
      | .minus, depth + 1 => do
          let (value, toks) ← parseUnary depth rest
          return (-value, toks)
      | .tilde, depth + 1 => do
          let (value, toks) ← parseUnary depth rest
          return (~~~value, toks)
      | .plus, depth + 1 => parseUnary depth rest
      | .lParen, depth + 1 => do
          let inner ← parseOr line (parseUnary depth) rest
          parseClose tok.line inner
      | .minus, 0 | .tilde, 0 | .plus, 0 | .lParen, 0 =>
          .error (.parseError tok.line nestsTooDeeply)
      | _, _ => parsePrimary resolve here tok rest

end

end Expr

/-- Evaluate tokens as an integer expression: `.` is `here`, and symbols are looked up
with `resolve`. -/
def evaluate (tokens : List Token) (resolve : String → Option Word) (here : Word)
    (line : Nat) : Except EmuError Word := do
  let (value, rest) ← Expr.parseOr line (Expr.parseUnary resolve here line Expr.maxExprDepth)
    tokens
  match rest with
  | [] => .ok value
  | tok :: _ => .error (.parseError tok.line "unexpected tokens after expression")

example : (do evaluate (← lex "-(2 + 3) * . << 1" 1) (fun _ => none) 7 1) =
    .ok (BitVec.ofInt 64 (-70)) := by decide

end Playground
