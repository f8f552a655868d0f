/-
Doubles as text: the correctly rounded decimal forms of Rust's formatter, reshaped into C's.
-/
import Playground.Machine.Registers
import Mathlib.Data.Nat.Digits.Defs
import Mathlib.Data.Nat.Log

namespace Playground

namespace Hosted

def digitByte (upper : Bool) (d : Nat) : Byte :=
  if d < 10 then BitVec.ofNat 8 (0x30 + d)
  else BitVec.ofNat 8 ((if upper then 0x41 else 0x61) + (d - 10))

/-- A number in a base, without leading zeros; zero is the digit 0. -/
def radixText (base : Nat) (upper : Bool) (n : Nat) : List Byte :=
  if n = 0 then [0x30] else (base.digits n).reverse.map (digitByte upper)

/-- The sign, exponent and fraction of a double. -/
def signBit (bits : Word) : Bool := bits.getLsbD 63

def exponentField (bits : Word) : Nat := bits.toNat / 2 ^ 52 % 2 ^ 11

def fractionField (bits : Word) : Nat := bits.toNat % 2 ^ 52

def isNan (bits : Word) : Bool := exponentField bits == 2047 && fractionField bits != 0

def isInfinite (bits : Word) : Bool := exponentField bits == 2047 && fractionField bits == 0

def isFinite (bits : Word) : Bool := exponentField bits != 2047

/-- The absolute value of a finite double, as a fraction. -/
def magnitude (bits : Word) : Nat × Nat :=
  let e := exponentField bits
  if e = 0 then (fractionField bits, 2 ^ 1074)
  else if 1075 ≤ e then ((fractionField bits + 2 ^ 52) * 2 ^ (e - 1075), 1)
  else (fractionField bits + 2 ^ 52, 2 ^ (1075 - e))

/-- The nearest whole number, the even one of two. -/
def roundHalfEven (n d : Nat) : Nat :=
  let q := n / d
  let r := n % d
  if d < 2 * r ∨ (2 * r = d ∧ q % 2 = 1) then q + 1 else q

/-- Exactly `places` digits. -/
def paddedText (places n : Nat) : List Byte :=
  ((List.range places).map fun i => digitByte false (n / 10 ^ i % 10)).reverse

/-- A value to so many places after the point. -/
def fixedText (value : Nat × Nat) (places : Nat) : List Byte :=
  let scaled := roundHalfEven (value.1 * 10 ^ places) value.2
  radixText 10 false (scaled / 10 ^ places) ++
    if places = 0 then [] else 0x2E :: paddedText places (scaled % 10 ^ places)

/-- The power of ten of the first digit. -/
def decimalExponent (value : Nat × Nat) : Int :=
  if value.2 ≤ value.1 then Nat.log 10 (value.1 / value.2)
  else -(Nat.clog 10 ((value.2 + value.1 - 1) / value.1) : Int)

/-- A value to so many places after its first digit: the digits, and the power of ten. -/
def scientificParts (value : Nat × Nat) (places : Nat) : Nat × Int :=
  if value.1 = 0 then (0, 0)
  else
    let k := decimalExponent value
    let digits :=
      if k ≤ places then roundHalfEven (value.1 * 10 ^ (places - k).toNat) value.2
      else roundHalfEven value.1 (value.2 * 10 ^ (k - places).toNat)
    -- rounding may carry into a new digit
    if digits = 10 ^ (places + 1) then (10 ^ places, k + 1) else (digits, k)

/-- Past this many places a double's decimal expansion is exact and every further digit is
0. -/
def exactPlaces : Nat := 1100

/-- `%f` of a non-negative finite value. -/
def formatFixed (value : Nat × Nat) (precision : Nat) (alt : Bool) : List Byte :=
  let exact := min precision exactPlaces
  fixedText value exact ++ List.replicate (precision - exact) 0x30 ++
    if alt ∧ precision = 0 then [0x2E] else []

/-- `%e`: d.dddddde+XX with a signed exponent of at least two digits. -/
def formatScientific (value : Nat × Nat) (precision : Nat) (alt : Bool) : List Byte :=
  let exact := min precision exactPlaces
  let (digits, exponent) := scientificParts value exact
  let mantissa := paddedText 1 (digits / 10 ^ exact) ++
    (if exact = 0 then [] else 0x2E :: paddedText exact digits) ++
    List.replicate (precision - exact) 0x30
  let point : List Byte := if alt ∧ precision = 0 then [0x2E] else []
  let power := radixText 10 false exponent.natAbs
  mantissa ++ point ++ [0x65, if exponent < 0 then 0x2D else 0x2B] ++
    List.replicate (2 - power.length) 0x30 ++ power

/-- The trailing zeros after a point, and a bare point, of the part before any exponent. -/
def stripZeros (body : List Byte) : List Byte :=
  let mantissa := body.takeWhile (· != 0x65)
  if 0x2E ∈ mantissa then
    ((mantissa.reverse.dropWhile (· == 0x30)).dropWhile (· == 0x2E)).reverse ++
      body.dropWhile (· != 0x65)
  else body

/-- `%g`: `%e` when the exponent is below -4 or at least the number of digits, else `%f`, with
the trailing zeros taken off. -/
def formatGeneral (value : Nat × Nat) (sig : Nat) (alt : Bool) : List Byte :=
  let exponent := (scientificParts value (min (sig - 1) exactPlaces)).2
  -- the form is chosen by the exponent before rounding, which eighteen digits give
  let carried := exponent = sig ∧ (scientificParts value 17).2 = exponent - 1
  let body :=
    if alt ∧ carried then formatScientific value 0 true
    else if exponent < -4 ∨ (sig : Int) ≤ exponent then formatScientific value (sig - 1) alt
    else formatFixed value ((sig : Int) - 1 - exponent).toNat alt
  if alt then body else stripZeros body

/-- A letter as a capital. -/
def upperByte (b : Byte) : Byte := if 0x61 ≤ b ∧ b ≤ 0x7A then b - 0x20 else b

/-- The digits of a double under a conversion: nan and inf by name. -/
def doubleText (bits : Word) (conv : Byte) (precision : Option Nat) (alt : Bool) : List Byte :=
  let body : List Byte :=
    if isNan bits then [0x6E, 0x61, 0x6E]
    else if isInfinite bits then [0x69, 0x6E, 0x66]
    else
      let value := magnitude bits
      let prec := precision.getD 6
      if conv = 0x66 ∨ conv = 0x46 then formatFixed value prec alt
      else if conv = 0x65 ∨ conv = 0x45 then formatScientific value prec alt
      -- significant digits here, 0 reading as 1
      else formatGeneral value (max prec 1) alt
  if 0x41 ≤ conv ∧ conv ≤ 0x5A then body.map upperByte else body

/-- -2.5 to six places, to one significant digit, and in scientific form. -/
example : doubleText 0xC004000000000000 0x66 none false =
      [0x32, 0x2E, 0x35, 0x30, 0x30, 0x30, 0x30, 0x30] ∧
    doubleText 0xC004000000000000 0x67 (some 1) false = [0x32] ∧
    doubleText 0xC004000000000000 0x65 (some 1) false =
      [0x32, 0x2E, 0x35, 0x65, 0x2B, 0x30, 0x30] := by
  decide

end Hosted

end Playground
