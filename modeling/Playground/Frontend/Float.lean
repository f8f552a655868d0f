/-
Double-precision literals: reading decimal text as the nearest double, ties to even,
and printing a double as the shortest decimal that reads back as it.
-/
import Mathlib

namespace Playground

namespace F64

/-- `⌊num / den⌋` rounded to nearest instead, ties to even. -/
def roundDiv (num den : Nat) : Nat :=
  let q := num / den
  let r := num % den
  if den < 2 * r ∨ (2 * r = den ∧ q % 2 = 1) then q + 1 else q

theorem div_le_roundDiv (num den : Nat) : num / den ≤ roundDiv num den := by
  rw [roundDiv]
  split
  · exact Nat.le_succ _
  · exact le_rfl

theorem roundDiv_one (num : Nat) : roundDiv num 1 = num := by
  simp [roundDiv, Nat.mod_one]

/-- `⌊log₂ (num / den)⌋` of a positive ratio. -/
def log2Ratio (num den : Nat) : Int :=
  let k : Int := (Nat.log2 num : Int) - Nat.log2 den
  if num * 2 ^ (-k).toNat < den * 2 ^ k.toNat then k - 1 else k

def infinity : Nat := 0x7FF * 2 ^ 52

/-- The bits of the double nearest to `num / den`. -/
def nearest (num den : Nat) : Nat :=
  if num = 0 then 0
  else
    let e : Int := max (-1074) (log2Ratio num den - 52)
    let q := roundDiv (num * 2 ^ (-e).toNat) (den * 2 ^ e.toNat)
    min ((e + 1074).toNat * 2 ^ 52 + q) infinity

/-- The double nearest to `digits * 10 ^ exponent`. -/
def ofDecimal (digits : Nat) (exponent : Int) : Nat :=
  nearest (digits * 10 ^ exponent.toNat) (10 ^ (-exponent).toNat)

/-- The number decimal digits spell. -/
def digitsValue (digits : List Char) : Nat :=
  digits.foldl (fun n c => n * 10 + (c.toNat - '0'.toNat)) 0

def takeSign : List Char → Bool × List Char
  | '-' :: rest => (true, rest)
  | '+' :: rest => (false, rest)
  | rest => (false, rest)

/-- `e` or `E`, an optional sign and at least one digit, to the end of the text. -/
def readExponent : List Char → Option Int
  | [] => some 0
  | c :: rest =>
      if c = 'e' ∨ c = 'E' then
        let (negative, digits) := takeSign rest
        if digits.isEmpty ∨ ¬ digits.all Char.isDigit then none
        else some (if negative then -(digitsValue digits : Int) else digitsValue digits)
      else none

/-- `str::parse::<f64>` on a decimal number: the bits it reads as. -/
def parse (text : List Char) : Option (BitVec 64) :=
  let (negative, rest) := takeSign text
  let whole := rest.takeWhile Char.isDigit
  let rest := rest.dropWhile Char.isDigit
  let (fraction, rest) := match rest with
    | '.' :: rest => (rest.takeWhile Char.isDigit, rest.dropWhile Char.isDigit)
    | rest => ([], rest)
  if whole.isEmpty ∧ fraction.isEmpty then none
  else
    (readExponent rest).map fun exponent =>
      let bits := ofDecimal (digitsValue (whole ++ fraction)) (exponent - fraction.length)
      BitVec.ofNat 64 (bits + if negative then 2 ^ 63 else 0)

/-- A positive double as `mantissa * 2 ^ exponent`. -/
def decompose (magnitude : Nat) : Nat × Int :=
  let biased : Nat := magnitude / 2 ^ 52
  let fraction := magnitude % 2 ^ 52
  if biased = 0 then (fraction, -1074) else (fraction + 2 ^ 52, (biased : Int) - 1075)

/-- The decimals with `n` digits next to `num / den`, nearest first, as a digit string
and the power of ten of its last digit. -/
def neighbours (num den n : Nat) : List (Nat × Int) :=
  let length : Int := if num < den then 1 - ((Nat.toDigits 10 (den / num)).length : Int)
    else (Nat.toDigits 10 (num / den)).length
  let digitsAt (power : Int) : Nat × Int :=
    ((num * 10 ^ (-power).toNat) / (den * 10 ^ power.toNat), power)
  let (low, power) := if (digitsAt (length - n)).1 < 10 ^ (n - 1) then digitsAt (length - n - 1)
    else digitsAt (length - n)
  let scaled : Nat := num * 10 ^ (-power).toNat
  let unit : Nat := den * 10 ^ power.toNat
  if 2 * (scaled - low * unit) ≤ unit then [(low, power), (low + 1, power)]
  else [(low + 1, power), (low, power)]

/-- The shortest decimal that reads back as the double. -/
def shortest (magnitude : Nat) : Nat × Int :=
  let (mantissa, e) := decompose magnitude
  let candidates := (List.range 17).flatMap fun n =>
    neighbours (mantissa * 2 ^ e.toNat) (2 ^ (-e).toNat) (n + 1)
  (candidates.find? fun d => ofDecimal d.1 d.2 == magnitude).getD (0, 0)

/-- A decimal in positional notation, with no exponent and no trailing zeros. -/
def positional (digits : Nat) (power : Int) : List Char :=
  if 0 ≤ power then Nat.toDigits 10 (digits * 10 ^ power.toNat)
  else
    let places := (-power).toNat
    let text := Nat.toDigits 10 (digits / 10 ^ places)
    let fraction := Nat.toDigits 10 (digits % 10 ^ places)
    let fraction := List.replicate (places - fraction.length) '0' ++ fraction
    let fraction := (fraction.reverse.dropWhile (· = '0')).reverse
    if fraction.isEmpty then text else text ++ '.' :: fraction

/-- The `Display` text of a double. -/
def display (bits : BitVec 64) : List Char :=
  let magnitude := bits.toNat % 2 ^ 63
  let sign := if bits.msb then ['-'] else []
  if infinity < magnitude then ['N', 'a', 'N']
  else if magnitude = infinity then sign ++ ['i', 'n', 'f']
  else if magnitude = 0 then sign ++ ['0']
  else
    let (digits, power) := shortest magnitude
    sign ++ positional digits power

example : (parse "3.14".toList).map display = some "3.14".toList := by decide
example : (parse "1e2".toList).map display = some "100".toList := by decide

end F64

end Playground
