/-
The numbers `scanf` reads: integers, and the decimals, infinities and NaNs of its float
conversions.
-/
import Playground.Frontend.Float
import Playground.Hosted.FloatText
import Playground.Hosted.Strtol

namespace Playground

namespace Hosted

open Numerals

def isDigitForBase (b : Byte) (base : Nat) : Bool :=
  if base = 10 then decide (0x30 ≤ b ∧ b ≤ 0x39)
  else if base = 16 then
    decide ((0x30 ≤ b ∧ b ≤ 0x39) ∨ (0x61 ≤ b ∧ b ≤ 0x66) ∨ (0x41 ≤ b ∧ b ≤ 0x46))
  else if base = 8 then decide (0x30 ≤ b ∧ b ≤ 0x37)
  else if base = 2 then decide (b = 0x30 ∨ b = 0x31)
  else false

def digitsValue (base : Nat) (digits : List Byte) : Nat :=
  value base (digits.map fun b => (digitValue b base).getD 0)

/-- What a scan of an integer comes to: it stalls for more input, or it gives a value and the
bytes it used, none when there is no number. -/
inductive ScannedInt (α : Type)
  | stalled
  | read (value : α) (consumed : Nat)
deriving DecidableEq, Repr

/-- A signed integer at the start of `buf`.  `flexible` lets a 0x prefix switch to hex;
`complete` means the buffer ends the field, so that running out of bytes does not stall. -/
def parseSignedInt (buf : List Byte) (flexible complete : Bool) : ScannedInt Int :=
  if buf = [] then .stalled
  else
    let (negative, i) := readSign buf
    let prefixed := flexible && buf[i]? == some 0x30 &&
      (buf[i + 1]? == some 0x78 || buf[i + 1]? == some 0x58)
    let base := if prefixed then 16 else 10
    let start := if prefixed then i + 2 else i
    let digits := (buf.drop start).takeWhile (isDigitForBase · base)
    let stop := start + digits.length
    if stop = buf.length ∧ ¬ complete then .stalled
    else if digits = [] then
      -- nothing after the 0x: the number is the bare 0
      .read 0 (if prefixed then start - 1 else 0)
    else
      let n := digitsValue base digits
      -- out of range saturates
      if n < 2 ^ 63 then .read (if negative then -n else n) stop
      else .read (if negative then -2 ^ 63 else 2 ^ 63 - 1) stop

def parseUnsignedInt (buf : List Byte) (base : Nat) (complete : Bool) : ScannedInt Nat :=
  if buf = [] then .stalled
  else
    let prefixed := base == 16 && buf[0]? == some 0x30 &&
      (buf[1]? == some 0x78 || buf[1]? == some 0x58)
    let start := if prefixed then 2 else 0
    let digits := (buf.drop start).takeWhile (isDigitForBase · base)
    let stop := start + digits.length
    if stop = buf.length ∧ ¬ complete then .stalled
    else if digits = [] then .read 0 (if prefixed then 1 else 0)
    else .read (min (digitsValue base digits) (2 ^ 64 - 1)) stop

/-- A scan of a float: whether it asked for a byte past the field, and the bits and the bytes
used, or the bytes read before it gave up. -/
structure ScannedFloat where
  hitEnd : Bool
  result : Except Nat (Word × Nat)

def toAsciiLower (b : Byte) : Byte := if 0x41 ≤ b ∧ b ≤ 0x5A then b + 0x20 else b

/-- Read `word` from `i` in any case: a wrong byte counts as read and a missing one does not. -/
def spell (field : List Byte) (i : Nat) : List Byte → Bool × Except Nat Nat
  | [] => (false, .ok i)
  | want :: word =>
      match field[i]? with
      | some b =>
          if toAsciiLower b = want then spell field (i + 1) word else (false, .error (i + 1))
      | none => (true, .error i)

/-- The payload inside `nan(...)`: an unsigned number in C's base rules, none unless all of the
text is that number. -/
def nanPayload (text : List Byte) : Nat :=
  let (digits, base) : List Byte × Nat :=
    if text[0]? = some 0x30 ∧ (text[1]? = some 0x78 ∨ text[1]? = some 0x58) ∧ text.drop 2 ≠ [] then
      (text.drop 2, 16)
    else if text[0]? = some 0x30 ∧ text.drop 1 ≠ [] then (text.drop 1, 8)
    else (text, 10)
  if digits = [] ∨ ¬ digits.all (isDigitForBase · base) then 0
  else min (digitsValue base digits) (2 ^ 64 - 1)

def isAlphanumericOrUnderscore (b : Byte) : Bool :=
  decide ((0x30 ≤ b ∧ b ≤ 0x39) ∨ (0x61 ≤ b ∧ b ≤ 0x7A) ∨ (0x41 ≤ b ∧ b ≤ 0x5A) ∨ b = 0x5F)

def infBits : Nat := 0x7FF0000000000000

def nanBits : Nat := 0x7FF8000000000000

def scanInfinity (field : List Byte) (start sign : Nat) : ScannedFloat :=
  match spell field start [0x69, 0x6E, 0x66] with
  | (hit, .error read) => ⟨hit, .error read⟩
  | (_, .ok stop) =>
      match field[stop]? with
      | none => ⟨true, .ok (BitVec.ofNat 64 (sign + infBits), stop)⟩
      | some b =>
          if b = 0x69 ∨ b = 0x49 then
            match spell field stop [0x69, 0x6E, 0x69, 0x74, 0x79] with
            | (hit, .error read) => ⟨hit, .error read⟩
            | (_, .ok stop) => ⟨false, .ok (BitVec.ofNat 64 (sign + infBits), stop)⟩
          else ⟨false, .ok (BitVec.ofNat 64 (sign + infBits), stop)⟩

/-- `nan`, and what stands in brackets behind it. -/
def scanNan (field : List Byte) (start sign : Nat) : ScannedFloat :=
  match spell field start [0x6E, 0x61, 0x6E] with
  | (hit, .error read) => ⟨hit, .error read⟩
  | (_, .ok stop) =>
      match field[stop]? with
      | none => ⟨true, .ok (BitVec.ofNat 64 (sign + nanBits), stop)⟩
      | some b =>
          if b = 0x28 then
            let text := (field.drop (stop + 1)).takeWhile isAlphanumericOrUnderscore
            let close := stop + 1 + text.length
            match field[close]? with
            | none => ⟨true, .error close⟩
            | some b =>
                if b = 0x29 then
                  let bits := sign + nanBits + nanPayload text % 2 ^ 51
                  ⟨false, .ok (BitVec.ofNat 64 bits, close + 1)⟩
                else ⟨false, .error (close + 1)⟩
          else ⟨false, .ok (BitVec.ofNat 64 (sign + nanBits), stop)⟩

/-- What a decimal has had so far. -/
structure DecimalState where
  dot : Bool
  digits : Bool
  exp : Bool
  expDigits : Bool
  /-- The byte before is the `e` of the exponent. -/
  afterExp : Bool

/-- One more byte of a decimal, if it fits: digits with at most one point, then an exponent once
a digit has come, signed only straight after the `e`. -/
def DecimalState.next (s : DecimalState) (b : Byte) : Option DecimalState :=
  if 0x30 ≤ b ∧ b ≤ 0x39 then
    if s.exp then some { s with expDigits := true, afterExp := false }
    else some { s with digits := true, afterExp := false }
  else if b = 0x2E ∧ ¬ s.dot ∧ ¬ s.exp then some { s with dot := true, afterExp := false }
  else if (b = 0x65 ∨ b = 0x45) ∧ s.digits ∧ ¬ s.exp then
    some { s with exp := true, afterExp := true }
  else if (b = 0x2B ∨ b = 0x2D) ∧ s.exp ∧ s.afterExp then some { s with afterExp := false }
  else none

/-- The bytes of a decimal: what they had, how many there were, and whether they ran out. -/
def readDecimal (s : DecimalState) : List Byte → DecimalState × Nat × Bool
  | [] => (s, 0, true)
  | b :: rest =>
      match s.next b with
      | none => (s, 0, false)
      | some s =>
          let (s, used, hit) := readDecimal s rest
          (s, used + 1, hit)

def asciiText (bytes : List Byte) : List Char := bytes.map fun b => Char.ofNat b.toNat

def scanDecimal (field : List Byte) (start : Nat) : ScannedFloat :=
  let (s, used, hit) := readDecimal ⟨false, false, false, false, false⟩ (field.drop start)
  let stop := start + used
  if ¬ s.digits ∨ (s.exp ∧ ¬ s.expDigits) then ⟨hit, .error stop⟩
  else ⟨hit, .ok ((F64.parse (asciiText (field.take stop))).getD 0, stop)⟩

/-- One field, from its sign on. -/
def scanFloat (field : List Byte) : ScannedFloat :=
  let (negative, start) := readSign field
  let sign := if negative then 2 ^ 63 else 0
  let first := field[start]?
  if first = some 0x69 ∨ first = some 0x49 then scanInfinity field start sign
  else if first = some 0x6E ∨ first = some 0x4E then scanNan field start sign
  else scanDecimal field start

/-- A float of at most `width` bytes: none when the field ran into the end of the input and more
may still come. -/
def parseFloat (buf : List Byte) (width : Nat) (closed : Bool) : Option (Except Nat (Word × Nat)) :=
  if buf = [] then none
  else
    let scanned := scanFloat (buf.take width)
    if scanned.hitEnd ∧ ¬ closed ∧ buf.length < width then none else some scanned.result

/-- The bits of the single nearest to `num / den`. -/
def nearestSingle (num den : Nat) : Nat :=
  if num = 0 then 0
  else
    let e : Int := max (-149) (F64.log2Ratio num den - 23)
    let q := F64.roundDiv (num * 2 ^ (-e).toNat) (den * 2 ^ e.toNat)
    min ((e + 149).toNat * 2 ^ 23 + q) (0xFF * 2 ^ 23)

/-- A double as a single: the nearest one, and of a NaN its sign and the low bits of its
payload. -/
def singleBits (bits : Word) : BitVec 32 :=
  let sign : Nat := if signBit bits then 2 ^ 31 else 0
  if isNan bits then BitVec.ofNat 32 (sign + 0x7FC00000 + bits.toNat % 2 ^ 22)
  else if isInfinite bits then BitVec.ofNat 32 (sign + 0x7F800000)
  else BitVec.ofNat 32 (sign + nearestSingle (magnitude bits).1 (magnitude bits).2)

example : (singleBits 0x3FB999999999999A, singleBits 0xC7EFFFFFF0000000) =
    (0x3DCCCCCD, 0xFF800000) := by
  decide

end Hosted

end Playground
