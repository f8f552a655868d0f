/-
What the integer encoders need of the scalar floating-point and vector ones: the operand
spellings that send a line to them, and their entry points as parameters.
-/
import Playground.Assembler.Operands

namespace Playground

namespace Assembler

/-- The encoders of scalar floating-point and vector lines, with the mnemonics their
tables know (in lower case). -/
structure VectorEncoders where
  knowsInteger : List Char → Bool
  knowsFloat : List Char → Bool
  hasScalarForm : List Char → Bool
  encodeSimdInteger : List Char → List (List Char) → Nat → Except EmuError (BitVec 32)
  encodeSimdFloat : List Char → List (List Char) → Nat → Except EmuError (BitVec 32)
  encodeSimdMov : List (List Char) → Nat → Except EmuError (BitVec 32)
  /-- ORR and BIC of vectors. -/
  encodeVectorLogical : List (List Char) → LogOp → Nat → Except EmuError (BitVec 32)
  /-- Every other mnemonic of theirs, in upper case. -/
  encode : List Char → List (List Char) → Nat → Option (Except EmuError (BitVec 32))

/-- The width a SIMD&FP register name spells. -/
inductive FpWidth
  | b | h | s | d | q
deriving DecidableEq, Repr

namespace FpWidth

def fromLetter (c : Char) : Option FpWidth :=
  let c := c.toUpper
  if c = 'B' then some b
  else if c = 'H' then some h
  else if c = 'S' then some s
  else if c = 'D' then some d
  else if c = 'Q' then some q
  else none

def letter : FpWidth → String
  | b => "b"
  | h => "h"
  | s => "s"
  | d => "d"
  | q => "q"

def bytes : FpWidth → Nat
  | b => 1
  | h => 2
  | s => 4
  | d => 8
  | q => 16

/-- The log of the access width. -/
def scaleShift : FpWidth → Nat
  | b => 0
  | h => 1
  | s => 2
  | d => 3
  | q => 4

def sizeField : FpWidth → Nat
  | b => 0b00
  | q => 0b00
  | h => 0b01
  | s => 0b10
  | d => 0b11

def opcHigh : FpWidth → Nat
  | q => 1
  | _ => 0

/-- The `opc` field of a pair; bytes and halfwords have no pair form. -/
def pairOpc : FpWidth → Option Nat
  | s => some 0b00
  | d => some 0b01
  | q => some 0b10
  | b => none
  | h => none

end FpWidth

/-- A SIMD&FP register: its number and the view its spelling names. -/
def parseFpRegister (text : List Char) (line : Nat) : Except EmuError (Nat × FpWidth) :=
  let text := trim text
  match text with
  | [] => asmErr line "empty register"
  | first :: digits =>
      match FpWidth.fromLetter first with
      | none => asmErr line ("expected a b, h, s, d or q register, or a v one with an " ++
          "arrangement (v3.16b), got: " ++ String.ofList text)
      | some width =>
          match parseUnsigned 10 256 digits with
          | none => asmErr line ("bad FP register: " ++ String.ofList text)
          | some idx =>
              if 31 < idx then
                asmErr line ("`" ++ String.ofList text ++ "` is not a floating-point " ++
                  "register: the SIMD&FP file runs 0 to 31, named b, h, s, d or q for its " ++
                  "8-, 16-, 32-, 64- and 128-bit views and v with an arrangement for the " ++
                  "vector one")
              else .ok (idx, width)

def arrangements : List String := ["8b", "16b", "4h", "8h", "2s", "4s", "1d", "2d"]

def elementBytes (letter : List Char) : Option Nat :=
  if letter = ['b'] then some 1
  else if letter = ['h'] then some 2
  else if letter = ['s'] then some 4
  else if letter = ['d'] then some 8
  else none

/-- Whether an operand is a `v` register with an arrangement, or one lane of one. -/
def isVecOperand (s : List Char) : Bool :=
  let text := lowerAsciiChars (trim s)
  match text.takeWhile (· ≠ '.'), text.dropWhile (· ≠ '.') with
  | 'v' :: index, _ :: tail =>
      if ¬ (parseUnsigned 10 256 index).any (fun idx => decide (idx ≤ 31)) then false
      else if '[' ∈ tail then
        let lane := (tail.dropWhile (· ≠ '[')).drop 1
        match elementBytes (tail.takeWhile (· ≠ '[')) with
        | none => false
        | some esize =>
            decide (lane.getLast? = some ']') &&
              (parseUnsigned 10 256 (trim lane.dropLast)).any fun n => decide (n < 16 / esize)
      else decide (tail ∈ arrangements.map String.toList)
  | _, _ => false

/-- Whether an operand is a b, h, s or d register. -/
def isSimdScalarOperand (s : List Char) : Bool :=
  match trim s with
  | [] => false
  | first :: digits =>
      match FpWidth.fromLetter first with
      | none => false
      | some .q => false
      | some _ => (parseUnsigned 10 256 digits).any fun idx => decide (idx ≤ 31)

/-- Whether a line can only be the integer vector reading of its mnemonic. -/
def isSimdIntegerLine (vec : VectorEncoders) (mn : List Char) (ops : List (List Char)) : Bool :=
  if mn = ['O', 'R', 'R'] ∨ mn = ['B', 'I', 'C'] ∨ mn = ['M', 'O', 'V'] then false
  else vec.knowsInteger (lowerAsciiChars mn) &&
    ops.head?.any fun op => isVecOperand op || isSimdScalarOperand op

/-- Whether a line can only be the float vector reading of its mnemonic. -/
def isSimdFloatLine (vec : VectorEncoders) (mn : List Char) (ops : List (List Char)) : Bool :=
  vec.knowsFloat (lowerAsciiChars mn) &&
    (ops.any isVecOperand ||
      (vec.hasScalarForm (lowerAsciiChars mn) && decide (2 ≤ ops.length) &&
        (ops.take 2).all isSimdScalarOperand))

end Assembler

def scalarEncoders : Assembler.VectorEncoders where
  knowsInteger _ := false
  knowsFloat _ := false
  hasScalarForm _ := false
  encodeSimdInteger _ _ line := .error (.assemblyError line "unknown instruction")
  encodeSimdFloat _ _ line := .error (.assemblyError line "unknown instruction")
  encodeSimdMov _ line := .error (.assemblyError line "unknown instruction")
  encodeVectorLogical _ _ line := .error (.assemblyError line "unknown instruction")
  encode _ _ _ := none

end Playground
