/-
Loading a program: the constructor and `reset`, the legacy word list, the section
writer, and the linked image with its argv page and the libc globals.
-/
import Playground.Frontend.Sections
import Playground.Machine.Step

namespace Playground

def argvBase : Word := 0x800000

def argvMaxBytes : Nat := 4096

def defaultArgv0 : String := "./program"

def fileHandleBase : Word := 0xFFFF2000

def fileHandleStride : Nat := 16

def stdioGlobalsBase : Word := 0x801000

def ctypeBPtr : Word := stdioGlobalsBase + 24

def ctypeBTable : Word := stdioGlobalsBase + 32

def ctypeToupperPtr : Word := stdioGlobalsBase + 800

def ctypeTolowerPtr : Word := stdioGlobalsBase + 808

def ctypeConvBase : Word := stdioGlobalsBase + 4096

def ctypeToupperTable : Word := ctypeConvBase

def ctypeTolowerTable : Word := ctypeConvBase + 1536

def tableFirstIndex : Int := -128

def tableLastIndex : Int := 255

def tableEntries : Nat := (tableLastIndex - tableFirstIndex + 1).toNat

def tableZeroOffset : Nat := (-tableFirstIndex).toNat * 2

def tableZeroOffsetI32 : Nat := (-tableFirstIndex).toNat * 4

def classOfByte (c : Nat) : BitVec 16 :=
  let upper := decide (0x41 ≤ c ∧ c ≤ 0x5A)
  let lower := decide (0x61 ≤ c ∧ c ≤ 0x7A)
  let digit := decide (0x30 ≤ c ∧ c ≤ 0x39)
  let xdigit := digit || decide (0x41 ≤ c ∧ c ≤ 0x46) || decide (0x61 ≤ c ∧ c ≤ 0x66)
  let graph := decide (0x21 ≤ c ∧ c < 0x7F)
  let alnum := upper || lower || digit
  let bit (b : Bool) (mask : BitVec 16) : BitVec 16 := if b then mask else 0
  if 0x80 ≤ c then 0
  else bit upper 0x0500 ||| bit lower 0x0600 ||| bit digit 0x0800 ||| bit xdigit 0x1000 |||
    bit alnum 0x0008 ||| bit (decide (c = 0x20 ∨ 0x09 ≤ c ∧ c ≤ 0x0D)) 0x2000 |||
    bit (decide (c = 0x20 ∨ c = 0x09)) 0x0001 ||| bit (decide (c < 0x20 ∨ c = 0x7F)) 0x0002 |||
    bit (decide (0x20 ≤ c ∧ c < 0x7F)) 0x4000 ||| bit graph 0x8000 |||
    bit (graph && !alnum) 0x0004

/-- The byte a table index names: the negative half mirrors the high half. -/
def tableByte (c : Int) : Nat := (c % 256).toNat

/-- The index is `EOF`, or outside the tables. -/
def offTable (c : Int) : Bool :=
  decide (c = -1) || decide (c < tableFirstIndex) || decide (tableLastIndex < c)

/-- The class bits at table index `c`; `EOF` has none. -/
def classOf (c : Int) : BitVec 16 :=
  if offTable c then 0 else classOfByte (tableByte c)

/-- The case rule at table index `c`: the letters change case, the rest pass. -/
def convertByte (c : Int) (toUpper : Bool) : Int :=
  let b := tableByte c
  if offTable c then c
  else if toUpper ∧ 0x61 ≤ b ∧ b ≤ 0x7A then b - 32
  else if ¬ toUpper ∧ 0x41 ≤ b ∧ b ≤ 0x5A then b + 32
  else b

def handleOf (fd : Nat) : Word := fileHandleBase + BitVec.ofNat 64 (fd * fileHandleStride)

/-- A memory write that may fault. -/
abbrev Attempt := Memory × Except EmuError Unit

/-- Go on only when nothing has faulted. -/
def Attempt.andThen (r : Attempt) (next : Memory → Attempt) : Attempt :=
  match r with
  | (m, .ok ()) => next m
  | (m, .error e) => (m, .error e)

/-- One attempt per element, up to the first that faults. -/
def Attempt.each {α : Type} (f : α → Memory → Attempt) (xs : List α) (m : Memory) : Attempt :=
  xs.foldl (fun r x => r.andThen (f x)) (m, .ok ())

/-- The `stdin`, `stdout` and `stderr` words and the three ctype tables. -/
def writeStdioGlobals (m : Memory) : Attempt :=
  let slot (base : Word) (i size : Nat) : Word := base + BitVec.ofNat 64 (i * size)
  let index (i : Nat) : Int := i + tableFirstIndex
  let handles := Attempt.each (fun fd m => m.writeU64 (slot stdioGlobalsBase fd 8) (handleOf fd))
    (List.range 3) (m.mapPage stdioGlobalsBase)
  let classes := (handles.andThen fun m =>
      m.writeU64 ctypeBPtr (ctypeBTable + BitVec.ofNat 64 tableZeroOffset)).andThen
    (Attempt.each (fun i m => m.writeU16 (slot ctypeBTable i 2) (classOf (index i)))
      (List.range tableEntries))
  let pointers := (classes.andThen fun m => (m.mapPage ctypeConvBase).writeU64 ctypeToupperPtr
      (ctypeToupperTable + BitVec.ofNat 64 tableZeroOffsetI32)).andThen fun m =>
    m.writeU64 ctypeTolowerPtr (ctypeTolowerTable + BitVec.ofNat 64 tableZeroOffsetI32)
  let conversions (table : Word) (toUpper : Bool) : Memory → Attempt :=
    Attempt.each (fun i m => m.writeU32 (slot table i 4)
      (BitVec.ofInt 32 (convertByte (index i) toUpper))) (List.range tableEntries)
  (pointers.andThen (conversions ctypeToupperTable true)).andThen
    (conversions ctypeTolowerTable false)

def argvStrings (poolStart : Word) : List String → List (Word × List Byte)
  | [] => []
  | arg :: args =>
      let bytes := arg.toUTF8.toList.map fun b => b.toBitVec
      (poolStart, bytes) ::
        argvStrings (poolStart + BitVec.ofNat 64 (bytes.length + 1)) args

/-- Write the pointer table and the string pool of argv. -/
def setupArgvMemory (m : Memory) (all : List String) : Attempt :=
  let tableBytes := (all.length + 1) * 8
  let total := tableBytes + (all.map fun arg => arg.utf8ByteSize + 1).sum
  if argvMaxBytes < total then (m, .error (.argvTooLarge total))
  else
    let strings := argvStrings (argvBase + BitVec.ofNat 64 tableBytes) all
    let written := Attempt.each (fun (entry : Nat × Word × List Byte) m =>
        let slot : Attempt := m.writeU64 (argvBase + BitVec.ofNat 64 (entry.1 * 8)) entry.2.1
        (slot.andThen fun m => m.writeBytes entry.2.1 entry.2.2).andThen fun m =>
          m.writeBytes (entry.2.1 + BitVec.ofNat 64 entry.2.2.length) [0])
      (strings.zipIdx.map Prod.swap) (m.mapPage argvBase)
    written.andThen fun m => m.writeU64 (argvBase + BitVec.ofNat 64 (all.length * 8)) 0

/-- Write argv and set the entry registers: `x0 = argc`, `x1 = argv`. -/
def setupArgv (regs : RegisterFile) (m : Memory) (args : List String) :
    RegisterFile × Attempt :=
  let all := defaultArgv0 :: args
  match setupArgvMemory m all with
  | (m, .ok ()) =>
      ((regs.writeGpr 0 true (BitVec.ofNat 64 all.length)).writeGpr 1 true argvBase,
        m, .ok ())
  | (m, .error e) => (regs, m, .error e)

namespace RandState

/-- One draw of the additive recurrence: the state after it. -/
def advance (s : RandState) : RandState :=
  let v := s.r.getD s.f 0 + s.r.getD s.rp 0
  { s with r := s.r.set s.f v, f := (s.f + 1) % 31, rp := (s.rp + 1) % 31 }

/-- Schrage's method for the next seed word, on `i32`. -/
def schrage (word : BitVec 32) : BitVec 32 :=
  let x := 16807 * word.toInt.tmod 127773 - 2836 * word.toInt.tdiv 127773
  BitVec.ofInt 32 (if x < 0 then x + 2147483647 else x)

/-- glibc's `srand`: a zero seed behaves as one, and the first 310 draws are
discarded. -/
def seed (seed : BitVec 32) : RandState :=
  let seed := if seed = 0 then 1 else seed
  advance^[310] ⟨List.iterate schrage seed 31, 3, 0, 1⟩

instance : Inhabited RandState := ⟨seed 1⟩

end RandState

/-- A write that hit the page cap reads as the calm memory message. -/
def mapWriteFault : EmuError → EmuError
  | .memoryFault _ .write => .runtimeError memoryCapMessage
  | e => e

/-- The pages the constructor and `reset` map up front. -/
def premappedPages : List Word :=
  (List.range 4).map (fun i => stackBase - BitVec.ofNat 64 ((i + 1) * 4096)) ++
  (List.range 4).map (fun i => codeBase + BitVec.ofNat 64 (i * 4096)) ++
  [rodataBase, dataBase, bssBase]

/-- A fresh memory with its fixed layout; `none` is the panic of its `expect`. -/
def layOutMemory (m : Memory) : Option Memory :=
  match writeStdioGlobals (premappedPages.foldl Memory.mapPage m) with
  | (m, .ok ()) => some m
  | (_, .error _) => none

namespace Cpu

/-- The small state of a machine no program has run on. -/
def idleState : Copied where
  halted := false
  blocked := false
  exitCode := none
  stdin := []
  stdinSegments := []
  stdinClosed := false
  vfs := []
  openFiles := []
  nextFd := 3
  randState := default
  term := default
  strtokSave := 0
  callbacks := default
  stdoutSeen := 0
  stderrSeen := 0
  stepsTotal := 0
  stepsTaken := 0
  lastProgramPc := 0

/-- The registers of a machine no program has run on. -/
def idleRegs : RegisterFile := (RegisterFile.new.writeSp stackBase).writePc codeBase

def new : Option Cpu := do
  let mem ← layOutMemory Memory.new
  return {
    toCopied := idleState
    machine := ⟨idleRegs, mem, HeapState.new⟩
    frames := CallStack.empty
    lastCall := default
    callScratch := default
    stdout := []
    stderr := []
    snapshotsPaused := false
    pendingSleepNs := none
    refundStepsTotal := 0
    refundOutputTotal := 0
    maxTotalSteps := Playground.maxTotalSteps
    outputTotal := 0
    abortMessage := none
    textEnd := none
    trampolineBase := 0
    trampolineNames := []
    clobberNotes := []
    clobberNoted := 0
    snapshots := ⟨[], snapshotCapacity⟩ }

/-- Back to the initial state, keeping the host table and what `new` does not set. -/
def reset (c : Cpu) : Option Cpu := do
  let mem ← layOutMemory c.mem.clear
  return { c with
    toCopied := idleState
    machine := ⟨idleRegs, mem.takeDirty.1, HeapState.new⟩
    frames := CallStack.empty
    lastCall := default
    stdout := []
    stderr := []
    snapshotsPaused := false
    pendingSleepNs := none
    refundStepsTotal := 0
    refundOutputTotal := 0
    outputTotal := 0
    abortMessage := none
    clobberNotes := []
    clobberNoted := 0
    snapshots := { c.snapshots with frames := [] } }

/-- What both loaders reset before a program runs. -/
def freshBudget (c : Cpu) : Cpu :=
  { c with
    stepsTotal := 0, stepsTaken := 0, outputTotal := 0, abortMessage := none
    term := default, pendingSleepNs := none, refundStepsTotal := 0, refundOutputTotal := 0
    snapshotsPaused := false, lastProgramPc := 0, lastCall := default
    snapshots := { c.snapshots with frames := [] } }

/-- Load encoded instructions at `codeBase`; `none` is the panic of its `expect`. -/
def loadProgram (c : Cpu) (code : List (BitVec 32)) : Option Cpu :=
  match Attempt.each (fun (entry : BitVec 32 × Nat) m =>
      m.writeU32 (codeBase + BitVec.ofNat 64 (entry.2 * 4)) entry.1) code.zipIdx c.mem with
  | (_, .error _) => none
  | (mem, .ok ()) =>
      let c := ((c.setMem mem).setRegs (c.regs.writePc codeBase)).freshBudget
      some { c with
        halted := false
        textEnd := some (codeBase + BitVec.ofNat 64 (code.length * 4))
        trampolineBase := 0
        trampolineNames := []
        frames := CallStack.start codeBase c.regs.snapshot }

/-- What a linked image resets besides the budget. -/
def startImage (c : Cpu) : Cpu :=
  { c.freshBudget with
    stdinClosed := false, strtokSave := 0, callbacks := default
    clobberNotes := [], clobberNoted := 0 }

/-- With the image written: its zero-filled spans, the entry point, and the address
`main` returns to. -/
def enterImage (p : Platform) (c : Cpu) (image : LinkedImage) : Cpu :=
  let c := c.setMem (c.mem.setZeroFill image.dataSpans)
  let c := c.setRegs (c.regs.writePc image.entryPoint)
  match p.host.lookup "__main_return" with
  | some address => c.setRegs (c.regs.writeGpr 30 true address)
  | none => c

/-- Load a linked image with its arguments.  One that fails partway keeps what it
wrote. -/
def loadLinkedImageWithArgs (p : Platform) (c : Cpu) (image : LinkedImage)
    (args : List String) : Cpu × Except EmuError Unit :=
  let c := c.startImage
  match Attempt.each (fun (write : Word × List Byte) m => m.writeBytes write.1 write.2)
      image.writes c.mem with
  | (mem, .error e) => (c.setMem mem, .error (mapWriteFault e))
  | (mem, .ok ()) =>
      let c := (c.setMem mem).enterImage p image
      let (regs, argv) := setupArgv c.regs c.mem args
      let c := c.setRegs regs
      match argv.andThen writeStdioGlobals with
      | (mem, .error e) => (c.setMem mem, .error (mapWriteFault e))
      | (mem, .ok ()) =>
          ({ c.setMem mem with
              frames := CallStack.start image.entryPoint c.regs.snapshot
              halted := false
              textEnd := some image.textEnd
              trampolineBase := image.trampolineBase
              trampolineNames := image.trampolineNames },
            .ok ())

def loadLinkedImage (p : Platform) (c : Cpu) (image : LinkedImage) :=
  c.loadLinkedImageWithArgs p image []

/-- Queue input.  An empty push records no segment. -/
def queueStdin (c : Cpu) (bytes : List Byte) (interactive : Bool) : Cpu :=
  { c with
    stdin := c.stdin ++ bytes
    stdinSegments := if bytes.isEmpty then c.stdinSegments
      else c.stdinSegments ++ [⟨bytes, 0, interactive, false⟩]
    blocked := false }

/-- End of input; before the first step it means that stdin is a file. -/
def closeStdin (c : Cpu) : Cpu :=
  { c with
    term := if c.stepsTotal = 0 ∧ c.refundStepsTotal = 0 then
        { c.term with stdinIsFile := true }
      else c.term
    stdinClosed := true
    blocked := false }

/-- Write one item of a section at `offset`; the offset after it, on `u64`. -/
def loadItem (base : Word) (offset : Nat) (m : Memory) :
    Item → Nat × Memory × Except EmuError Unit
  | .bytes bytes =>
      ((offset + bytes.length) % 2 ^ 64, m.writeBytes (base + BitVec.ofNat 64 offset) bytes)
  | .reserve n => ((offset + n) % 2 ^ 64, m, .ok ())
  | .alignToBytes bytes maxSkip =>
      ((offset + alignPadding offset bytes maxSkip) % 2 ^ 64, m, .ok ())
  | .instruction _ _ => ((offset + 4) % 2 ^ 64, m, .ok ())
  | .dataExprs exprs width _ => ((offset + exprs.length * width) % 2 ^ 64, m, .ok ())
  | .label _ _ => (offset, m, .ok ())
  | .symbolAssignment _ _ _ => (offset, m, .ok ())
  | .reserveExpr _ _ => (offset, m, .ok ())

def loadItems (base : Word) : Nat → List Item → Memory → Attempt
  | _, [], m => (m, .ok ())
  | offset, item :: items, m =>
      let (offset, r) := loadItem base offset m item
      Attempt.andThen r (loadItems base offset items)

/-- Load a parsed program's sections at their base addresses. -/
def loadSections (c : Cpu) (program : Program) : Cpu × Except EmuError Unit :=
  match Attempt.each (fun (s : Section) => loadItems s.kind.defaultBase 0 s.items)
      program.sections c.mem with
  | (mem, .error e) => (c.setMem mem, .error e)
  | (mem, .ok ()) =>
      ({ (c.setMem mem).setRegs (c.regs.writePc codeBase) with halted := false }, .ok ())

end Cpu

end Playground
