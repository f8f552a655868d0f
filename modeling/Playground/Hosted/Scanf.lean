/-
`scanf`: it walks the format over the input, and takes nothing from the input until the call
is done.
-/
import Playground.Hosted.ScanNumbers
import Playground.Hosted.Varargs

namespace Playground

namespace Hosted

open Exec

def usizeMax : Nat := 2 ^ 64 - 1

/-- The first place at or after `i` that is not C white space. -/
def skipSpace (input : List Byte) (i : Nat) : Nat :=
  i + ((input.drop i).takeWhile isCSpace).length

structure ScanSpec where
  suppress : Bool
  width : Option Nat
  long : Bool
deriving DecidableEq, Repr

def asciiDigit (c : Char) : Option Nat :=
  if '0'.toNat ≤ c.toNat ∧ c.toNat ≤ '9'.toNat then some (c.toNat - '0'.toNat) else none

/-- Digits of a width, and how many there were. -/
def readFieldWidth (width : Option Nat) : List Char → Option Nat × Nat
  | [] => (width, 0)
  | c :: rest =>
      match asciiDigit c with
      | some d =>
          let n := min (min (width.getD 0 * 10) usizeMax + d) usizeMax
          let (width, used) := readFieldWidth (some n) rest
          (width, used + 1)
      | none => (width, 0)

/-- Length letters, whether one is an `l`, and how many there were. -/
def readLongModifier (long : Bool) : List Char → Bool × Nat
  | [] => (long, 0)
  | c :: rest =>
      if c ∈ ['l', 'h', 'z', 'j', 't'] then
        let (long, used) := readLongModifier (long || c == 'l') rest
        (long, used + 1)
      else (long, 0)

/-- The suppression flag, the width and the length modifier, and the characters they take. -/
def parseScanSpec (fmt : List Char) : ScanSpec × Nat :=
  let suppress := fmt.head? == some '*'
  let i := if suppress then 1 else 0
  let (width, used) := readFieldWidth none (fmt.drop i)
  let i := i + used
  let (long, used) := readLongModifier false (fmt.drop i)
  (⟨suppress, width, long⟩, i + used)

/-- The most bytes of the input a conversion reads. -/
def fieldLimit (spec : ScanSpec) : Nat := max (spec.width.getD usizeMax) 1

/-- What a conversion stores. -/
inductive Stored
  /-- Bytes, one at a time. -/
  | bytes (text : List Byte)
  | word (value : BitVec 32)
  | long (value : Word)
deriving DecidableEq, Repr

/-- How the input meets a conversion. -/
inductive Field
  /-- It matches up to a place, and has something to store unless it is suppressed. -/
  | taken (stored : Option Stored) (inPos : Nat)
  /-- It does not match; what has been read stays read. -/
  | mismatch (inPos : Nat)
  /-- It ends first. -/
  | stalled (inPos : Nat)
  /-- There is no such conversion. -/
  | unknown
deriving DecidableEq, Repr

/-- A byte as a character of the format. -/
def byteChar (b : Byte) : Char := Char.ofNat b.toNat

def storedInt (long : Bool) (value : Word) : Stored :=
  if long then .long value else .word (value.setWidth 32)

/-- An integer field that starts at `inPos`. -/
def intField {α : Type} (scanned : ScannedInt α) (bits : α → Word) (long : Bool) (inPos : Nat) :
    Field :=
  match scanned with
  | .stalled => .stalled inPos
  | .read value consumed =>
      if consumed = 0 then .mismatch inPos
      else .taken (some (storedInt long (bits value))) (inPos + consumed)

/-- The bytes of a word that starts at a place, up to the limit. -/
def wordBytes (input : List Byte) (start limit : Nat) : List Byte :=
  ((input.drop start).take limit).takeWhile fun b => ! isCSpace b

/-- The input from `inPos` on under a conversion; `closed` says that no more will come. -/
def scanField (spec : ScanSpec) (conv : Char) (input : List Byte) (inPos : Nat) (closed : Bool) :
    Field :=
  let start := skipSpace input inPos
  let limit := fieldLimit spec
  let field := (input.drop start).take limit
  let complete := decide (start + limit ≤ input.length) || closed
  if conv = '%' then
    match input[inPos]? with
    | none => .stalled inPos
    | some b => if byteChar b ≠ '%' then .mismatch inPos else .taken none (inPos + 1)
  else if conv = 'c' then
    let count := max (spec.width.getD 1) 1
    if input.length < inPos + count then .stalled inPos
    else .taken (some (.bytes ((input.drop inPos).take count))) (inPos + count)
  else if conv = 'd' ∨ conv = 'i' then
    intField (parseSignedInt field (conv == 'i') complete) (BitVec.ofInt 64) spec.long start
  else if conv = 'u' then
    intField (parseUnsignedInt field 10 complete) (BitVec.ofNat 64) spec.long start
  else if conv = 'x' ∨ conv = 'X' then
    intField (parseUnsignedInt field 16 complete) (BitVec.ofNat 64) spec.long start
  else if conv = 's' then
    if input.length ≤ start then .stalled start
    else
      let word := wordBytes input start limit
      let stop := start + word.length
      -- a word that runs into the end with width to spare may still go on
      if stop = input.length ∧ word.length < limit then .stalled stop
      else .taken (some (.bytes (word ++ [0]))) stop
  else if conv ∈ ['f', 'F', 'e', 'E', 'g', 'G'] then
    match parseFloat (input.drop start) limit closed with
    | none => .stalled start
    | some (.error read) => .mismatch (start + read)
    | some (.ok (bits, consumed)) =>
        .taken (some (if spec.long then .long bits else .word (singleBits bits))) (start + consumed)
  else .unknown

/-- Where a call is: how much of the input it has read, how many fields it has stored, and its
next argument. -/
structure ScanState where
  inPos : Nat
  matched : Nat
  walker : VarargWalker

/-- Store bytes one at a time. -/
def storeEach (addr : Word) : List Byte → Exec Unit
  | [] => pure ()
  | b :: rest => do
      writeU8 addr b
      storeEach (addr + 1) rest

def store (ptr : Word) : Stored → Exec Unit
  | .bytes text => storeEach ptr text
  | .word value => writeU32 ptr value
  | .long value => writeU64 ptr value

/-- Store a field that matched, unless it is suppressed. -/
def takeField (spec : ScanSpec) (stored : Option Stored) (inPos : Nat) (s : ScanState) :
    Exec ScanState :=
  match stored with
  | none => return { s with inPos := inPos }
  | some stored =>
      if spec.suppress then return { s with inPos := inPos }
      else do
        let (ptr, walker) ← s.walker.nextInt
        Hosted.store ptr stored
        return ⟨inPos, s.matched + 1, walker⟩

/-- The first bytes stored at an address, as a number. -/
def storedAt (mem : Memory) (addr : Word) (size : Nat) : Word :=
  (List.range (min size 8)).foldl (fun value i =>
    let byte : Byte := match mem.readU8 (addr + BitVec.ofNat 64 i) with
      | .ok byte => byte
      | .error _ => 0
    value ||| byte.setWidth 64 <<< (8 * i)) 0

/-- Where the text of a field starts: every conversion but `%c` and `%%` skips white space. -/
def fieldStart (conv : Char) (stdin : List Byte) (inPos : Nat) : Nat :=
  if conv = 'c' ∨ conv = '%' then inPos else skipSpace stdin inPos

/-- Record what a conversion that matched read and stored. -/
def noteField (conv : Char) (fieldFrom written : Nat) (s : ScanState) : Stub Unit := do
  let stdin ← Stub.look HostSide.stdin
  let mem ← Exec.look Machine.mem
  let size := mem.bytesWritten - written
  modifyCall fun call => call.updateCurrent fun row =>
    { row with
      code := callOk, source := s.walker.last.1, arg := s.walker.last.2, size := size
      stored := storedAt mem s.walker.last.2 size
      textStart := fieldStart conv stdin fieldFrom, textEnd := s.inPos }

/-- The input word that a field which did not match met instead. -/
def noteMismatch (stdin : List Byte) (row : Conversion) : Conversion :=
  if row.code = callNoMatch then
    let start := skipSpace stdin row.textStart
    let limit := min stdin.length (start + 32)
    let word := ((stdin.drop start).take (limit - start)).takeWhile fun b => ! isCSpace b
    { row with textStart := start, textEnd := start + word.length }
  else row

/-- The call is done: what was read leaves the input, and the count is the answer. -/
def commit (s : ScanState) : Stub HostOutcome := do
  Stub.modify fun side =>
    let call := side.callScratch.updateCurrent (noteMismatch side.stdin)
    let read := (call.rows.map Conversion.textEnd).foldl max s.inPos
    { side with
      callScratch := call.setText (side.stdin.take read), stdin := side.stdin.drop s.inPos }
  answer (BitVec.ofNat 64 s.matched)

/-- The input ran out: at its end the call is done, and answers -1 when nothing was stored;
otherwise it waits for more. -/
def stall (inPos matched : Nat) : Stub HostOutcome := do
  let closed ← Stub.stdinClosed
  if closed then do
    Stub.modify fun side =>
      let call := side.callScratch.updateCurrent fun row =>
        if row.code = callNoMatch then { row with code := callNoInput } else row
      { side with
        callScratch := call.setText (side.stdin.take inPos), stdin := side.stdin.drop inPos }
    answer (if 0 < matched then BitVec.ofNat 64 matched else BitVec.allOnes 64)
  else return .needInput

/-- How many bytes a text takes in UTF-8. -/
def utf8Length (text : List Char) : Nat := (text.map Char.utf8Size).sum

def isFormatSpace (c : Char) : Bool :=
  c ∈ [' ', '\t', '\n', Char.ofNat 0x0C, '\r', Char.ofNat 0x0B]

/-- The format from byte `pos` on, its first `skip` characters being part of what came
before. -/
def scanFrom : Nat → Nat → ScanState → List Char → Stub HostOutcome
  | _, _, s, [] => commit s
  | pos, skip + 1, s, c :: rest => scanFrom (pos + c.utf8Size) skip s rest
  | pos, 0, s, c :: rest =>
      if isFormatSpace c then do
        let stdin ← Stub.look HostSide.stdin
        scanFrom (pos + c.utf8Size) 0 { s with inPos := skipSpace stdin s.inPos } rest
      else if c ≠ '%' then do
        let stdin ← Stub.look HostSide.stdin
        match stdin[s.inPos]? with
        | none => stall s.inPos s.matched
        | some b =>
            if byteChar b ≠ c then commit s
            else scanFrom (pos + c.utf8Size) 0 { s with inPos := s.inPos + 1 } rest
      else
        let (spec, used) := parseScanSpec rest
        match rest[used]? with
        -- a lone % at the end
        | none => commit s
        | some conv => do
            let stdin ← Stub.look HostSide.stdin
            let closed ← Stub.stdinClosed
            let written ← Exec.look fun m => m.mem.bytesWritten
            modifyCall fun call => call.push
              { (default : Conversion) with
                fmtStart := pos, fmtEnd := pos + 1 + utf8Length (rest.take (used + 1))
                source := argNone, textStart := s.inPos, textEnd := s.inPos, code := callNoMatch }
            let s := { s with walker := { s.walker with last := (argNone, 0) } }
            match scanField spec conv stdin s.inPos closed with
            | .stalled inPos => stall inPos s.matched
            | .mismatch inPos => commit { s with inPos := inPos }
            | .unknown => do
                modifyCall fun call => call.updateCurrent fun row =>
                  { row with code := callStopped }
                commit s
            | .taken stored inPos => do
                let fieldFrom := s.inPos
                let s ← takeField spec stored inPos s
                noteField conv fieldFrom written s
                scanFrom (pos + c.utf8Size) (used + 1) s rest

def utf8Bytes (text : List Char) : List Byte :=
  text.flatMap fun c => (String.utf8EncodeChar c).map UInt8.toBitVec

/-- scanf(format, ...). -/
def scanf : Stub HostOutcome := do
  let fmtPtr ← readGpr 0 true
  let fmt ← attempt fun m => readCString m.mem fmtPtr "scanf's format string"
  let fmt := fromUtf8Lossy fmt
  modifyCall fun call => call.begin (utf8Bytes fmt)
  scanFrom 0 0 ⟨0, 0, .new 1⟩ fmt

end Hosted

end Playground
