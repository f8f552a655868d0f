/-
`printf`, `sprintf` and `snprintf`: one engine walks the format, and its callers decide where
the bytes go.
-/
import Playground.Hosted.CString
import Playground.Hosted.FloatText
import Playground.Hosted.Varargs

namespace Playground

namespace Hosted

open Exec

/-- One past what one call may print: a wider field makes the call stop, instead of being
clamped into a wrong answer. -/
def maxFieldWidth : Nat := maxPrintfCallBytes + 1

structure FormatSpec where
  leftAlign : Bool
  zeroPad : Bool
  plus : Bool
  space : Bool
  alt : Bool
  width : Nat
  precision : Option Nat
  long : Bool
  /-- How many `h`: one is a short, more are a char. -/
  short : Nat
  longDouble : Bool
deriving DecidableEq, Repr

instance : Inhabited FormatSpec := ⟨⟨false, false, false, false, false, 0, none, false, 0, false⟩⟩

/-- An integer argument at the width its length modifier names. -/
def narrowSigned (raw : Word) (spec : FormatSpec) : Int :=
  match spec.short with
  | 0 => if spec.long then raw.toInt else (raw.setWidth 32).toInt
  | 1 => (raw.setWidth 16).toInt
  | _ => (raw.setWidth 8).toInt

/-- Same, for the unsigned conversions. -/
def narrowUnsigned (raw : Word) (spec : FormatSpec) : Nat :=
  match spec.short with
  | 0 => if spec.long then raw.toNat else (raw.setWidth 32).toNat
  | 1 => (raw.setWidth 16).toNat
  | _ => (raw.setWidth 8).toNat

/-- What a flag sets; the apostrophe groups digits, which the C locale has nothing to group
with. -/
def setFlag (spec : FormatSpec) (c : Byte) : Option FormatSpec :=
  if c = 0x2D then some { spec with leftAlign := true }
  else if c = 0x30 then some { spec with zeroPad := true }
  else if c = 0x2B then some { spec with plus := true }
  else if c = 0x20 then some { spec with space := true }
  else if c = 0x23 then some { spec with alt := true }
  else if c = 0x27 then some spec
  else none

def setLength (spec : FormatSpec) (c : Byte) : Option FormatSpec :=
  if c = 0x6C ∨ c = 0x7A ∨ c = 0x6A ∨ c = 0x74 then some { spec with long := true, short := 0 }
  else if c = 0x68 then some { spec with long := false, short := min (spec.short + 1) 255 }
  else if c = 0x4C then some { spec with longDouble := true }
  else none

/-- Letters at the start that set something, and how many there were. -/
def readLetters (set : FormatSpec → Byte → Option FormatSpec) (spec : FormatSpec) :
    List Byte → FormatSpec × Nat
  | [] => (spec, 0)
  | c :: rest =>
      match set spec c with
      | some spec =>
          let (spec, used) := readLetters set spec rest
          (spec, used + 1)
      | none => (spec, 0)

def isDigit (b : Byte) : Bool := decide (0x30 ≤ b ∧ b ≤ 0x39)

/-- A run of decimal digits, capped like a `*` value, and how many there were. -/
def readCount (n : Nat) : List Byte → Nat × Nat
  | [] => (n, 0)
  | c :: rest =>
      if isDigit c then
        let (n, used) := readCount (min (n * 10 + (c.toNat - 0x30)) maxFieldWidth) rest
        (n, used + 1)
      else (n, 0)

/-- The width: a negative `*` argument is the `-` flag and its absolute value. -/
def parseWidth (spec : FormatSpec) (fmt : List Byte) (walker : VarargWalker) :
    Exec (FormatSpec × Nat × VarargWalker) :=
  if fmt.head? = some 0x2A then do
    let (value, walker) ← walker.nextInt
    let arg := asI32 value
    return ({ spec with
      leftAlign := spec.leftAlign || decide (arg < 0), width := min arg.natAbs maxFieldWidth },
      1, walker)
  else
    let (n, used) := readCount 0 fmt
    return ({ spec with width := n }, used, walker)

def parsePrecision (spec : FormatSpec) (fmt : List Byte) (walker : VarargWalker) :
    Exec (FormatSpec × Nat × VarargWalker) :=
  if fmt.head? ≠ some 0x2E then return (spec, 0, walker)
  else if fmt[1]? = some 0x2A then do
    let (value, walker) ← walker.nextInt
    let arg := asI32 value
    return ({ spec with
      precision := if 0 ≤ arg then some (min arg.toNat maxFieldWidth) else none }, 2, walker)
  else
    let (n, used) := readCount 0 (fmt.drop 1)
    return ({ spec with precision := some n }, used + 1, walker)

/-- One conversion's flags, width, precision and length modifier, and the bytes they take. -/
def parseSpec (fmt : List Byte) (walker : VarargWalker) :
    Exec (FormatSpec × Nat × VarargWalker) := do
  let (spec, i) := readLetters setFlag default fmt
  let (spec, used, walker) ← parseWidth spec (fmt.drop i) walker
  let i := i + used
  let (spec, used, walker) ← parsePrecision spec (fmt.drop i) walker
  let i := i + used
  let (spec, used) := readLetters setLength spec (fmt.drop i)
  return (spec, i + used, walker)

def signOf (negative : Bool) (spec : FormatSpec) : List Byte :=
  if negative then [0x2D] else if spec.plus then [0x2B] else if spec.space then [0x20] else []

/-- The digits of a value, at least `precision` of them; zero to a precision of 0 has none. -/
def intDigits (value base : Nat) (upper : Bool) (precision : Option Nat) : List Byte :=
  let digits := if value = 0 ∧ precision = some 0 then [] else radixText base upper value
  match precision with
  | some wanted => List.replicate (wanted - digits.length) 0x30 ++ digits
  | none => digits

/-- Lay out one conversion in its field: `lead` (a sign or 0x) goes before any zero padding and
`body` after it. -/
def emitField (lead body : List Byte) (spec : FormatSpec) (zeroOk : Bool) : List Byte :=
  let pad := spec.width - (lead.length + body.length)
  if spec.leftAlign then lead ++ body ++ List.replicate pad 0x20
  else if spec.zeroPad && zeroOk then lead ++ List.replicate pad 0x30 ++ body
  else List.replicate pad 0x20 ++ lead ++ body

/-- `%d` and `%i`. -/
def signedField (spec : FormatSpec) (value : Int) : List Byte :=
  emitField (signOf (decide (value < 0)) spec) (intDigits value.natAbs 10 false spec.precision)
    spec spec.precision.isNone

/-- `%u`, `%x`, `%X` and `%o`. -/
def unsignedField (spec : FormatSpec) (conv : Byte) (value : Nat) : List Byte :=
  let base := if conv = 0x6F then 8 else if conv = 0x75 then 10 else 16
  let digits := intDigits value base (conv == 0x58) spec.precision
  let lead : List Byte :=
    if conv = 0x78 ∧ spec.alt ∧ value ≠ 0 then [0x30, 0x78]
    else if conv = 0x58 ∧ spec.alt ∧ value ≠ 0 then [0x30, 0x58]
    else []
  -- an octal value starts with 0 unless its precision already made it
  let digits :=
    if conv = 0x6F ∧ spec.alt ∧ digits.head? ≠ some 0x30 then 0x30 :: digits else digits
  emitField lead digits spec spec.precision.isNone

/-- `%p`: a null pointer by name. -/
def pointerField (spec : FormatSpec) (value : Word) : List Byte :=
  if value = 0 then emitField [] [0x28, 0x6E, 0x69, 0x6C, 0x29] spec false
  else
    emitField [0x30, 0x78] (intDigits value.toNat 16 false spec.precision) spec
      spec.precision.isNone

def wildString (ptr : Word) : EmuError :=
  .runtimeError ("printf %s was handed the pointer 0x" ++ hexText ptr.toNat ++
    ", which does not point at readable memory. Check that the argument register holds a " ++
    "string address (ldr xN, =label)")

/-- The bytes of a `%s` argument: the precision is the most that is read. -/
def stringArgument (mem : Memory) (spec : FormatSpec) (ptr : Word) : Except EmuError (List Byte) :=
  match (match spec.precision with
    | some max => readCPrefix mem max ptr
    | none => readCString mem ptr "printf %s") with
  | .ok bytes => .ok bytes
  | .error (.memoryFault _ _) => .error (wildString ptr)
  | .error e => .error e

def charText (conv : Byte) : String := String.singleton (Char.ofNat conv.toNat)

def longDoubleError (conv : Byte) : EmuError :=
  .runtimeError ("printf %L" ++ charText conv ++ " (a long double) is not supported by the " ++
    "playground; pass a double and print it with %" ++ charText conv)

def hexFloatError (conv : Byte) : EmuError :=
  .runtimeError ("printf %" ++ charText conv ++
    " is not supported by this emulator; format the value with %f")

/-- The conversions of doubles: f, F, e, E, g and G. -/
def isDoubleConv (conv : Byte) : Bool := conv ∈ ([0x66, 0x46, 0x65, 0x45, 0x67, 0x47] : List Byte)

/-- One conversion: the walker past its argument, the bytes it prints, and whether it stops the
call. -/
def formatConversion (spec : FormatSpec) (conv : Byte) (walker : VarargWalker) :
    Stub (VarargWalker × List Byte × Except EmuError Unit) :=
  if conv = 0x25 then return (walker, [0x25], .ok ())
  else if conv = 0x64 ∨ conv = 0x69 then do
    let (raw, walker) ← walker.nextInt
    return (walker, signedField spec (narrowSigned raw spec), .ok ())
  else if conv = 0x75 ∨ conv = 0x78 ∨ conv = 0x58 ∨ conv = 0x6F then do
    let (raw, walker) ← walker.nextInt
    return (walker, unsignedField spec conv (narrowUnsigned raw spec), .ok ())
  else if conv = 0x70 then do
    let (value, walker) ← walker.nextInt
    return (walker, pointerField spec value, .ok ())
  else if conv = 0x63 then do
    let (value, walker) ← walker.nextInt
    return (walker, emitField [] [value.setWidth 8] spec false, .ok ())
  else if conv = 0x73 then do
    let (ptr, walker) ← walker.nextInt
    let read ← Exec.look fun m => stringArgument m.mem spec ptr
    match read with
    | .ok bytes => do
        modifyCall fun call => call.readString bytes
        return (walker, emitField [] bytes spec false, .ok ())
    | .error e => return (walker, [], .error e)
  else if isDoubleConv conv then
    if spec.longDouble then return (walker, [], .error (longDoubleError conv))
    else do
      let (bits, walker) ← walker.nextDouble
      let body := doubleText bits conv spec.precision spec.alt
      return (walker, emitField (signOf (signBit bits) spec) body spec (isFinite bits), .ok ())
  else if conv = 0x61 ∨ conv = 0x41 then return (walker, [], .error (hexFloatError conv))
  -- anything else goes out as it stands
  else return (walker, [0x25, conv], .ok ())

def overlongError : EmuError :=
  .assemblyError 0 "printf produced over 1024 KiB in a single call and was stopped"

/-- Record how a conversion ended. -/
def noteConversion (walker : VarargWalker) (out : List Byte) (done : Except EmuError Unit) :
    Stub Unit :=
  modifyCall fun call =>
    let stopped := match done with
      | .ok () => false
      | .error _ => true
    let call := call.updateCurrent fun row =>
      { row with
        source := walker.last.1, arg := walker.last.2, textEnd := out.length
        code := if stopped then callStopped else callOk }
    if stopped || decide (maxPrintfCallBytes < out.length) then call.setText out else call

/-- The format from byte `pos` on, its first `skip` bytes being part of what came before, after
`out` has been printed. -/
def formatFrom : Nat → Nat → VarargWalker → List Byte → List Byte → Stub (List Byte)
  | _, _, _, out, [] => return out
  | pos, skip + 1, walker, out, _ :: rest => formatFrom (pos + 1) skip walker out rest
  | pos, 0, walker, out, c :: rest =>
      if c ≠ 0x25 then formatFrom (pos + 1) 0 walker (out ++ [c]) rest
      else do
        let (spec, used, walker) ← parseSpec rest walker
        match rest[used]? with
        -- a trailing % with nothing after it
        | none => return out ++ [0x25]
        | some conv => do
            -- the argument of a `*` is not the conversion's
            let walker := { walker with last := (argNone, 0) }
            modifyCall fun call => call.push
              { (default : Conversion) with
                fmtStart := pos, fmtEnd := pos + used + 2, textStart := out.length }
            let (walker, text, done) ← formatConversion spec conv walker
            let out := out ++ text
            noteConversion walker out done
            match done with
            | .error e => Stub.fail e
            | .ok () =>
                if maxPrintfCallBytes < out.length then Stub.fail overlongError
                else formatFrom (pos + 1) (used + 1) walker out rest

/-- The formatted bytes: the format, over the arguments from a register on. -/
def formatInto (fmtPtr : Word) (firstGp : Nat) (what : String) : Stub (List Byte) := do
  let fmt ← attempt fun m => readCString m.mem fmtPtr what
  modifyCall fun call => call.begin fmt
  let out ← formatFrom 0 0 (.new firstGp) [] fmt
  modifyCall fun call => call.setText out
  return out

def writeBytesAt (addr : Word) : List Byte → Exec Unit
  | [] => pure ()
  | b :: rest => do
      writeU8 addr b
      writeBytesAt (addr + 1) rest

/-- Store bytes and a terminator. -/
def writeCString (buf : Word) (bytes : List Byte) : Exec Unit := do
  writeBytesAt buf bytes
  writeU8 (buf + BitVec.ofNat 64 bytes.length) 0

/-- printf(format, ...). -/
def printf : Stub HostOutcome := do
  let fmtPtr ← readGpr 0 true
  let out ← formatInto fmtPtr 1 "printf's format string"
  Stub.modify fun side => { side with stdout := side.stdout ++ out }
  answer (BitVec.ofNat 64 out.length)

/-- sprintf(buf, format, ...). -/
def sprintf : Stub HostOutcome := do
  let buf ← readGpr 0 true
  let fmtPtr ← readGpr 1 true
  let out ← formatInto fmtPtr 2 "sprintf's format string"
  writeCString buf out
  answer (BitVec.ofNat 64 out.length)

/-- snprintf(buf, size, format, ...). -/
def snprintf : Stub HostOutcome := do
  let buf ← readGpr 0 true
  let size ← readGpr 1 true
  let fmtPtr ← readGpr 2 true
  let out ← formatInto fmtPtr 3 "snprintf's format string"
  if 0 < size.toNat then
    writeCString buf (out.take (min out.length (size.toNat - 1)))
  answer (BitVec.ofNat 64 out.length)

end Hosted

end Playground
