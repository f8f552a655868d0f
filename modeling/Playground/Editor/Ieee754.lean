/-
The float panel's reading of a 32- or 64-bit pattern: its fields and class, the exact decimal of
its value, decimal text rounded to the nearest pattern, and the shortest decimal of a pattern.
-/
import Playground.Frontend.Float
import Playground.Library.FloatGrid

namespace Playground

namespace Ieee754

open F64 (takeSign digitsValue)
open FloatGrid (roundUp)

inductive FloatWidth
  | w32
  | w64
deriving DecidableEq, Repr

structure FloatLayout where
  exponentBits : Nat
  fractionBits : Nat
  bias : Nat

namespace FloatWidth

def bits : FloatWidth → Nat
  | w32 => 32
  | w64 => 64

def layout : FloatWidth → FloatLayout
  | w32 => ⟨8, 23, 127⟩
  | w64 => ⟨11, 52, 1023⟩

def exponentBits (w : FloatWidth) : Nat := w.layout.exponentBits

def fractionBits (w : FloatWidth) : Nat := w.layout.fractionBits

def bias (w : FloatWidth) : Nat := w.layout.bias

/-- The all-ones exponent that marks infinity and NaN. -/
def topExponent (w : FloatWidth) : Nat := 1 <<< w.exponentBits - 1

end FloatWidth

inductive FloatClass
  | zero
  | subnormal
  | normal
  | infinity
  | quietNaN
  | signallingNaN
deriving DecidableEq, Repr

structure FloatFields where
  sign : Bool
  exponent : Nat
  fraction : Nat
deriving DecidableEq, Repr

def splitFloat (bits : Nat) (w : FloatWidth) : FloatFields where
  sign := (bits >>> (w.bits - 1)) &&& 1 = 1
  exponent := (bits >>> w.fractionBits) &&& (1 <<< w.exponentBits - 1)
  fraction := bits &&& (1 <<< w.fractionBits - 1)

def joinFloat (fields : FloatFields) (w : FloatWidth) : Nat :=
  (fields.sign.toNat <<< (w.bits - 1)) ||| (fields.exponent <<< w.fractionBits) |||
    fields.fraction

def classify (bits : Nat) (w : FloatWidth) : FloatClass :=
  let fields := splitFloat bits w
  if fields.exponent = 0 then if fields.fraction = 0 then .zero else .subnormal
  else if fields.exponent < w.topExponent then .normal
  else if fields.fraction = 0 then .infinity
  else if fields.fraction &&& (1 <<< (w.fractionBits - 1)) ≠ 0 then .quietNaN
  else .signallingNaN

section Text

def dropTrailingZeros (digits : List Char) : List Char :=
  (digits.reverse.dropWhile (· = '0')).reverse

def padStart (length : Nat) (digits : List Char) : List Char :=
  List.replicate (length - digits.length) '0' ++ digits

def padEnd (length : Nat) (digits : List Char) : List Char :=
  digits ++ List.replicate (length - digits.length) '0'

/-- The exact decimal of m * 2^q: 2^-k is 5^k / 10^k, so nothing rounds.  The digits before the
point, and those after it. -/
def exactDecimal (m : Nat) (q : Int) : List Char × List Char :=
  if 0 ≤ q then (Nat.toDigits 10 (m <<< q.toNat), [])
  else
    let places := (-q).toNat
    let digits := padStart (places + 1) (Nat.toDigits 10 (m * 5 ^ places))
    (digits.take (digits.length - places),
      dropTrailingZeros (digits.drop (digits.length - places)))

/-- The digits as text: no point without digits after it. -/
def decimalText (d : List Char × List Char) : List Char :=
  if d.2 = [] then d.1 else d.1 ++ '.' :: d.2

def signText (negative : Bool) : List Char := if negative then ['-'] else []

end Text

section Parse

/-- What `DECIMAL` matches: the sign, the digits either side of the point, and the exponent. -/
structure DecimalMatch where
  negative : Bool
  whole : List Char
  after : List Char
  exponent : Option (Bool × List Char)

def matchExponent : List Char → Option (Option (Bool × List Char))
  | [] => some none
  | c :: rest =>
      if c = 'e' ∨ c = 'E' then
        let (negative, digits) := takeSign rest
        if digits ≠ [] ∧ digits.all Char.isDigit = true then some (some (negative, digits))
        else none
      else none

/-- The digits after a point, if there is one, and the text that follows. -/
def matchAfter : List Char → List Char × List Char
  | '.' :: rest => (rest.takeWhile Char.isDigit, rest.dropWhile Char.isDigit)
  | rest => ([], rest)

def matchDecimal (text : List Char) : Option DecimalMatch :=
  let (negative, rest) := takeSign text
  let whole := rest.takeWhile Char.isDigit
  let (after, rest) := matchAfter (rest.dropWhile Char.isDigit)
  (matchExponent rest).map fun exponent => ⟨negative, whole, after, exponent⟩

/-- What `SPECIAL` matches: the sign, and whether it is nan. -/
def matchSpecial (text : List Char) : Option (Bool × Bool) :=
  let (negative, rest) := takeSign text
  let name := rest.map Char.toLower
  if name = "inf".toList ∨ name = "infinity".toList then some (negative, false)
  else if name = "nan".toList then some (negative, true)
  else none

/-- A JS number that is whole, or infinite. -/
inductive JsNumber
  | negInf
  | finite (z : Int)
  | posInf
deriving DecidableEq, Repr

namespace JsNumber

/-- The double nearest to a whole number. -/
def ofInt (z : Int) : JsNumber :=
  let a := z.natAbs
  let scale := Nat.size a - 53
  let rounded := F64.roundDiv a (2 ^ scale) * 2 ^ scale
  if 2 ^ 1024 ≤ rounded then if z < 0 then negInf else posInf
  else finite (if z < 0 then -(rounded : Int) else rounded)

/-- A sum with a whole number, as doubles add. -/
def add (x : JsNumber) (k : Int) : JsNumber :=
  match x with
  | finite z => ofInt (z + k)
  | x => x

def above (bound : Int) : JsNumber → Bool
  | negInf => false
  | finite z => decide (bound < z)
  | posInf => true

def below (bound : Int) : JsNumber → Bool
  | negInf => true
  | finite z => decide (z < bound)
  | posInf => false

/-- The whole number, once the infinite ones have been answered. -/
def toInt : JsNumber → Int
  | finite z => z
  | _ => 0

end JsNumber

namespace DecimalMatch

/-- The exponent written, 0 for none. -/
def written (m : DecimalMatch) : Int :=
  match m.exponent with
  | none => 0
  | some (negative, digits) => if negative then -(digitsValue digits : Int) else digitsValue digits

/-- `Number(match[4] ?? "0") - after.length`. -/
def exp10 (m : DecimalMatch) : JsNumber :=
  (JsNumber.ofInt m.written).add (-(m.after.length : Int))

end DecimalMatch

/-- The stored fields, or which way the value fell off the format. -/
inductive Rounded
  | overflow
  | underflow
  | fields (exponent fraction : Nat) (exact : Bool)
deriving DecidableEq, Repr

/-- `toString(2).length`. -/
def binaryLength (n : Nat) : Nat := if n = 0 then 1 else Nat.size n

/-- Round the exact fraction num / den to the nearest float, ties to even. -/
def roundToFloat (num den : Nat) (w : FloatWidth) : Rounded :=
  -- e = floor(log2(num / den)), from the bit lengths and one correction
  let guess : Int := (binaryLength num : Int) - binaryLength den
  let e := if (if 0 ≤ guess then num < den <<< guess.toNat else num <<< (-guess).toNat < den)
    then guess - 1 else guess
  -- the weight of the last fraction bit, which stops falling below the normal range
  let q : Int := max e (1 - (w.bias : Int)) - w.fractionBits
  let n := if q < 0 then num <<< (-q).toNat else num
  let d := if 0 < q then den <<< q.toNat else den
  let r := n % d
  let m := if roundUp (n / d) r d then n / d + 1 else n / d
  let hidden := 1 <<< w.fractionBits
  if m = 0 then .underflow
  else if m < hidden then .fields 0 m (decide (r = 0))
  else
    let exponent := q + w.fractionBits + w.bias
    -- a carry into a new power of two
    let carried := m = hidden <<< 1
    let exponent := if carried then exponent + 1 else exponent
    let m := if carried then m >>> 1 else m
    if (w.topExponent : Int) ≤ exponent then .overflow
    else .fields exponent.toNat (m - hidden) (decide (r = 0))

inductive Parsed
  | overflow
  | underflow
  | pattern (bits : Nat) (exact : Bool)
deriving DecidableEq, Repr

def maxValueText : Nat := 2000

/-- Decimal (or inf / nan) text to the nearest pattern; none when the text is no number. -/
def decimalToFloat (text : List Char) (w : FloatWidth) : Option Parsed :=
  match matchSpecial text with
  | some (negative, nan) =>
      let fraction := if nan then 1 <<< (w.fractionBits - 1) else 0
      some (.pattern (joinFloat ⟨negative, w.topExponent, fraction⟩ w) true)
  | none =>
      match if text.length ≤ maxValueText then matchDecimal text else none with
      | none => none
      | some m =>
          if m.whole.length + m.after.length = 0 then none
          else
            let digits := (m.whole ++ m.after).dropWhile (· = '0')
            if digits = [] then some (.pattern (joinFloat ⟨m.negative, 0, 0⟩ w) true)
            else
              -- the value sits in [10^(magnitude-1), 10^magnitude)
              let magnitude := m.exp10.add digits.length
              if magnitude.above 400 then some .overflow
              else if magnitude.below (-400) then some .underflow
              else
                let exp10 := m.exp10.toInt
                let num := digitsValue digits * 10 ^ (max exp10 0).toNat
                match roundToFloat num (10 ^ (max (-exp10) 0).toNat) w with
                | .overflow => some .overflow
                | .underflow => some .underflow
                | .fields exponent fraction exact =>
                    some (.pattern (joinFloat ⟨m.negative, exponent, fraction⟩ w) exact)

end Parse

section Print

/-- The digits of a finite value's magnitude. -/
def exactMagnitude (bits : Nat) (w : FloatWidth) : List Char × List Char :=
  let fields := splitFloat bits w
  let m := if fields.exponent = 0 then fields.fraction
    else fields.fraction ||| (1 <<< w.fractionBits)
  exactDecimal m ((max fields.exponent 1 : Nat) - (w.bias : Int) - w.fractionBits)

/-- The first digits of a positive decimal as a whole number, its power of ten, and the digits
that follow. -/
def leadingDigits (exact : List Char × List Char) (digits : Nat) : Nat × Int × List Char :=
  let all := exact.1 ++ exact.2
  let lead := (all.takeWhile (· = '0')).length
  (digitsValue (padEnd digits ((all.drop lead).take digits)),
    (exact.1.length : Int) - lead - digits,
    dropTrailingZeros (all.drop (lead + digits)))

/-- The two decimals of `digits` significant digits either side of a positive exact decimal,
nearer first, a tie to the even one; just one when the value fits in that many digits. -/
def bracketingDecimals (exact : List Char × List Char) (digits : Nat) : List (Nat × Int) :=
  let (below, power, rest) := leadingDigits exact digits
  if rest = [] then [(below, power)]
  else if ['5'] < rest ∨ (rest = ['5'] ∧ below % 2 = 1) then
    [(below + 1, power), (below, power)]
  else [(below, power), (below + 1, power)]

/-- `toPrecision(9)`: the nearer of the two decimals of 9 digits, the larger in a tie. -/
def toPrecision9 (exact : List Char × List Char) : Nat × Int :=
  let (below, power, rest) := leadingDigits exact 9
  if ['5'] ≤ rest then (below + 1, power) else (below, power)

/-- The runtime's own printing: `String(x)` of a double's pattern, and `String(Number(text))` of
a signed decimal n e k. -/
structure NumberText where
  double : Nat → List Char
  decimal : Bool → Nat → Int → List Char

variable (js : NumberText)

/-- The shortest decimal that reads back to exactly these bits. -/
def formatFloatValue (bits : Nat) (w : FloatWidth) : List Char :=
  let negative := (splitFloat bits w).sign
  match classify bits w with
  | .infinity => signText negative ++ "inf".toList
  | .quietNaN | .signallingNaN => signText negative ++ "nan".toList
  | .zero => signText negative ++ ['0']
  | .subnormal | .normal =>
      match w with
      | .w64 => js.double bits
      | .w32 =>
          let exact := exactMagnitude bits .w32
          let candidates := (List.range 8).flatMap fun digits =>
            bracketingDecimals exact (digits + 1)
          let texts := candidates.map fun decimal => js.decimal negative decimal.1 decimal.2
          let readsBack := fun text =>
            match decimalToFloat text .w32 with
            | some (.pattern back _) => back == bits
            | _ => false
          match texts.find? readsBack with
          | some text => text
          | none =>
              let decimal := toPrecision9 exact
              js.decimal negative decimal.1 decimal.2

/-- Every digit of the stored value, however many that takes. -/
def exactValue (bits : Nat) (w : FloatWidth) : List Char :=
  match classify bits w with
  | .infinity | .quietNaN | .signallingNaN => formatFloatValue js bits w
  | _ => signText (splitFloat bits w).sign ++ decimalText (exactMagnitude bits w)

end Print

end Ieee754

end Playground
