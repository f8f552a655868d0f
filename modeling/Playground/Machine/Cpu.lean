/-
The cpu and its `step`: fetch, decode and execute one instruction (or run one
library stub), record what changed in a step-back frame, and `stepBack`, which
takes the newest frame back.
-/
import Playground.Machine.CallStackUndo
import Playground.Machine.Host

namespace Playground

def snapshotCapacity : Nat := 128

/-- Budget for the state a frame copies whole. -/
def maxSnapshotSideBytes : Nat := 4096

def codeBase : Word := 0x400000

def rodataBase : Word := 0x500000

def dataBase : Word := 0x600000

def bssBase : Word := 0x700000

def stackBase : Word := 0x80000000

/-- Lowest address sp may legally reach. -/
def stackFloor : Word := stackBase - 8 * 1024 * 1024

def maxTotalSteps : Nat := 10000000

def maxOutputBytes : Nat := 4 * 1024 * 1024

def sleepStepRefundNsPerStep : Nat := 1000

def sleepOutputRefundNsPerByte : Nat := 10000

def maxSleepNs : Nat := 2000000000

def maxRefundSteps : Nat := 200000000

def maxRefundOutputBytes : Nat := maxOutputBytes

def bulkBytesPerStep : Nat := 16

def memoryCapMessage : String :=
  "stopped: the program asked for more memory than the playground gives it " ++
  "(8 MiB of stack and 16 MiB of heap). Check for a loop that stores past the end of " ++
  "an array, a malloc inside a loop with no free, or a frame size computed from a " ++
  "value that was never initialized"

def stepCeilingMessage : String :=
  "stopped after " ++ ToString.toString (maxTotalSteps / 1000000) ++
  " million steps, which is the playground's ceiling. The usual cause is a loop whose " ++
  "exit condition never becomes true: check that the counter is actually changing, and " ++
  "that the branch condition is the one you meant (b.le against b.lt, b.ne against b.eq)"

def outputCeilingMessage : String :=
  "stopped: the program printed more than " ++
  ToString.toString (maxOutputBytes / (1024 * 1024)) ++
  " MiB of output; check for a print inside a loop that never ends"

def pastEndMessage : String :=
  "execution ran past the last instruction of the program. main needs a `ret` (with an " ++
  "epilogue if it pushed one) or an exit call as its final step"

/-- What happened during a single step. -/
inductive StepOutcome
  | advance
  | halted
  | waitingForInput
  | sleeping (ns : Nat)
  | exited (code : Int)
deriving DecidableEq, Repr

structure StepResult where
  pc : Word
  halted : Bool
  error : Option String
  outcome : StepOutcome
deriving DecidableEq, Repr

/-- One push worth of queued stdin, with its cooked-tty echo state. -/
structure StdinSegment where
  bytes : List Byte
  consumed : Nat
  interactive : Bool
  echoed : Bool
deriving DecidableEq, Repr

/-- The small machine state a frame copies whole, field by field. -/
structure Copied where
  halted : Bool
  blocked : Bool
  exitCode : Option Int
  stdin : List Byte
  stdinSegments : List StdinSegment
  stdinClosed : Bool
  vfs : List (String × List Byte)
  openFiles : List (Nat × OpenFile)
  nextFd : Nat
  randState : RandState
  term : TermState
  strtokSave : Word
  callbacks : CallbackState
  stdoutSeen : Nat
  stderrSeen : Nat
  stepsTotal : Nat
  stepsTaken : Nat
  lastProgramPc : Word

/-- One step-back frame: the state before a step, with registers, memory, the heap
and the call stack as logs of what the step changed. -/
structure StepFrame extends Copied where
  regs : RegUndo
  mem : MemUndo
  heap : List HeapEdit
  frames : FrameUndo
  call : Option CallRecord

/-- The ring of frames, oldest first. -/
structure SnapshotRing where
  frames : List StepFrame
  capacity : Nat

/-- The cpu.  The registers the last step changed, the breakpoints, the symbols and
the named saves are the debugger's and are left out. -/
structure Cpu extends Copied where
  machine : Machine
  frames : CallStack
  lastCall : CallRecord
  callScratch : CallRecord
  stdout : List Byte
  stderr : List Byte
  snapshotsPaused : Bool
  pendingSleepNs : Option Nat
  refundStepsTotal : Nat
  refundOutputTotal : Nat
  maxTotalSteps : Nat
  outputTotal : Nat
  abortMessage : Option String
  textEnd : Option Word
  trampolineBase : Word
  trampolineNames : List String
  clobberNotes : List (BitVec 32)
  clobberNoted : BitVec 64
  snapshots : SnapshotRing

namespace SnapshotRing

/-- The ring with its oldest frame dropped once it is full, to make room. -/
def makeRoom (ring : SnapshotRing) : List StepFrame :=
  if ring.frames.length = ring.capacity then ring.frames.drop 1 else ring.frames

/-- Change the frame pushed last, which the running step's undo logs belong to. -/
def updateNewest (ring : SnapshotRing) (f : StepFrame → StepFrame) : SnapshotRing :=
  match ring.frames.getLast? with
  | some frame => { ring with frames := ring.frames.dropLast ++ [f frame] }
  | none => ring

def newest (ring : SnapshotRing) : Option StepFrame := ring.frames.getLast?

end SnapshotRing

namespace Cpu

def regs (c : Cpu) : RegisterFile := c.machine.regs

def mem (c : Cpu) : Memory := c.machine.mem

def setRegs (c : Cpu) (regs : RegisterFile) : Cpu :=
  { c with machine := { c.machine with regs := regs } }

def setMem (c : Cpu) (mem : Memory) : Cpu :=
  { c with machine := { c.machine with mem := mem } }

/-- Read a register between calls, noting the read. -/
def readGpr (c : Cpu) (index : Nat) : Cpu × Word :=
  let (regs, value) := c.regs.readGpr index true
  (c.setRegs regs, value)

/-- Halt with a message: the shared tail of every calm halt. -/
def haltWith (c : Cpu) (message : String) : Cpu × StepResult :=
  ({ c with halted := true, abortMessage := some message },
    ⟨c.regs.pc, true, some message, .halted⟩)

def memoryCapHalt (c : Cpu) : Cpu × StepResult := c.haltWith memoryCapMessage

def outputCapHalt (c : Cpu) : Cpu × StepResult := c.haltWith outputCeilingMessage

def runtimeErrorHalt (c : Cpu) (e : EmuError) : Cpu × StepResult := c.haltWith e.toString

/-- Add whatever a stub or syscall just printed to the output counters; true means
the output wall is breached. -/
def chargeOutput (c : Cpu) (outBefore errBefore : Nat) : Cpu × Bool :=
  let outNew := c.stdout.length - outBefore
  let errNew := c.stderr.length - errBefore
  let c := { c with
    stdoutSeen := saturatingAdd c.stdoutSeen outNew
    stderrSeen := saturatingAdd c.stderrSeen errNew
    outputTotal := c.outputTotal + (outNew + errNew) }
  (c, decide (maxOutputBytes < c.outputTotal))

/-- Whether the state a frame copies whole has outgrown the ring's budget. -/
def snapshotSideBytesExceeded (c : Cpu) : Bool :=
  let files := (c.vfs.map fun file => file.1.utf8ByteSize + file.2.length).sum
  let paths := (c.openFiles.map fun file => file.2.path.utf8ByteSize).sum
  decide (maxSnapshotSideBytes < c.stdin.length + files + paths)

/-- Charge the step budget for bulk guest memory a call just moved. -/
def chargeBulkWork (c : Cpu) (before : Nat) : Cpu :=
  let moved := c.mem.bytesWritten - before
  { c with stepsTotal := saturatingAdd c.stepsTotal (moved / bulkBytesPerStep) }

/-- The two walls a step meets before it executes anything. -/
def checkRunawayWalls (c : Cpu) : Cpu × Option StepResult :=
  if c.maxTotalSteps ≤ c.stepsTotal then
    let (c, result) := c.haltWith stepCeilingMessage
    (c, some result)
  else if c.regs.sp < stackFloor then
    let (c, result) := c.runtimeErrorHalt .stackOverflow
    (c, some result)
  else (c, none)

/-- The frame the running step fills: the small state copied, the logs opened on
the buffers of `slot`. -/
def openFrame (c : Cpu) (slot : StepFrame) : StepFrame where
  halted := c.halted
  blocked := c.blocked
  exitCode := c.exitCode
  stdin := if slot.stdin.isEmpty && c.stdin.isEmpty then slot.stdin else c.stdin
  stdinSegments :=
    if slot.stdinSegments.isEmpty && c.stdinSegments.isEmpty then slot.stdinSegments
    else c.stdinSegments
  stdinClosed := c.stdinClosed
  vfs := if slot.vfs.isEmpty && c.vfs.isEmpty then slot.vfs else c.vfs
  openFiles := if slot.openFiles.isEmpty && c.openFiles.isEmpty then slot.openFiles
    else c.openFiles
  nextFd := c.nextFd
  randState := c.randState
  term := c.term
  strtokSave := c.strtokSave
  callbacks :=
    if slot.callbacks.isIdle && c.callbacks.isIdle then
      { slot.callbacks with stubPc := c.callbacks.stubPc }
    else c.callbacks
  stdoutSeen := c.stdoutSeen
  stderrSeen := c.stderrSeen
  stepsTotal := c.stepsTotal
  stepsTaken := c.stepsTaken
  lastProgramPc := c.lastProgramPc
  call := none
  frames := c.frames.recordUndo
  regs := (c.regs.recordUndo slot.regs).2
  mem := (c.mem.recordUndo slot.mem).2
  heap := (c.machine.heap.recordUndo slot.heap).2

/-- A blank slot, as a ring that is not full yet hands out. -/
def blankFrame : StepFrame where
  halted := false
  blocked := false
  exitCode := none
  stdin := []
  stdinSegments := []
  stdinClosed := false
  vfs := []
  openFiles := []
  nextFd := 0
  randState := ⟨[], 0, 0, 0⟩
  term := default
  strtokSave := 0
  callbacks := default
  stdoutSeen := 0
  stderrSeen := 0
  stepsTotal := 0
  stepsTaken := 0
  lastProgramPc := 0
  call := none
  frames := default
  regs := default
  mem := default
  heap := []

def recordsFrames (c : Cpu) : Bool :=
  !(c.term.rawMode || c.snapshotsPaused || c.snapshotSideBytesExceeded)

/-- The slot for a new newest frame: the oldest frame once the ring is full, a blank
one before that. -/
def pushSlot (ring : SnapshotRing) : StepFrame :=
  if ring.frames.length = ring.capacity then ring.frames.headD blankFrame else blankFrame

/-- Snapshot the state before the step touches anything; a step that is not recorded
ends the history instead. -/
def captureStepSnapshot (c : Cpu) : Cpu :=
  if c.recordsFrames then
    let slot := pushSlot c.snapshots
    { c with
      machine := ⟨(c.regs.recordUndo slot.regs).1, (c.mem.recordUndo slot.mem).1,
        (c.machine.heap.recordUndo slot.heap).1⟩
      snapshots := { c.snapshots with
        frames := c.snapshots.makeRoom ++ [c.openFrame slot] } }
  else { c with snapshots := { c.snapshots with frames := [] } }

/-- Give the frame this step pushed the undo logs the step filled. -/
def closeStepFrame (c : Cpu) : Cpu :=
  match c.snapshots.newest with
  | none => c
  | some frame =>
      { c with
        machine := ⟨(c.regs.finishUndo frame.regs).1, (c.mem.finishUndo frame.mem).1,
          (c.machine.heap.finishUndo frame.heap).1⟩
        snapshots := c.snapshots.updateNewest fun frame =>
          { frame with
            regs := (c.regs.finishUndo frame.regs).2
            mem := (c.mem.finishUndo frame.mem).2
            heap := (c.machine.heap.finishUndo frame.heap).2 } }

/-- How the cycle ended, in the order the states shadow one another. -/
def classifyOutcome (c : Cpu) : Cpu × StepOutcome :=
  if c.blocked then (c, .waitingForInput)
  else
    match c.exitCode with
    | some code => ({ c with halted := true }, .exited code)
    | none =>
        if c.halted then (c, .halted)
        else
          match c.pendingSleepNs with
          | some ns => (c, .sleeping ns)
          | none => (c, .advance)

/-- Whether `addr` is one of the program's own instructions. -/
def inProgram (c : Cpu) (addr : Word) : Bool :=
  match c.textEnd with
  | some stop => decide (codeBase ≤ addr) && decide (addr < stop)
  | none => false

/-- Run an operation of the call stack against the newest frame's log. -/
def onFrames (c : Cpu)
    (op : CallStack → Option FrameUndo → CallStack × Option FrameUndo) : Cpu :=
  let (frames, log) := op c.frames (c.snapshots.newest.map StepFrame.frames)
  { c with
    frames := frames
    snapshots := c.snapshots.updateNewest fun frame =>
      { frame with frames := log.getD frame.frames } }

/-- Keep the call stack in step with a call or a return the instruction at `pc` just
made, or a store of lr. -/
def trackCallOrReturn (c : Cpu) (pc : Word) (kind : CallKind) : Cpu :=
  let regs := c.regs.snapshot
  match kind with
  | .call =>
      let target := c.regs.pc
      c.onFrames fun frames log =>
        frames.onCall pc target (c.inProgram target) regs c.mem log
  | .ret =>
      let x0Width := c.regs.writeWidth 0
      let changed := (c.frames.onReturn pc c.regs.pc c.stepsTaken regs x0Width
        (c.snapshots.newest.map StepFrame.frames)).2
      let c := c.onFrames fun frames log =>
        (frames.onReturn pc c.regs.pc c.stepsTaken regs x0Width log).1
      if changed ≠ 0 then c.setRegs (c.regs.markCalleeSaved changed pc) else c
  | .lrStore => c.onFrames fun frames log => frames.onLrStore log
  | .other => c

/-- Echo the cooked-tty lines a read just consumed: `left` bytes still to account
for. -/
def echoSegments (rawMode : Bool) :
    Nat → List StdinSegment → List Byte → List StdinSegment × List Byte
  | _, [], stdout => ([], stdout)
  | left, segment :: segments, stdout =>
      if left = 0 then (segment :: segments, stdout)
      else
        let available := segment.bytes.length - segment.consumed
        if available = 0 then echoSegments rawMode left segments stdout
        else
          let touch := decide (segment.consumed = 0) && segment.interactive &&
            !segment.echoed && !rawMode
          let stdout := if touch then stdout ++ segment.bytes else stdout
          let taken := min available left
          if segment.consumed + taken = segment.bytes.length then
            echoSegments rawMode (left - taken) segments stdout
          else
            ({ segment with
                echoed := segment.echoed || touch
                consumed := segment.consumed + taken } :: segments, stdout)

def echoConsumedStdin (c : Cpu) (before : Nat) : Cpu :=
  let (segments, stdout) := echoSegments c.term.rawMode (before - c.stdin.length)
    c.stdinSegments c.stdout
  { c with stdinSegments := segments, stdout := stdout }

/-- Honor a nanosleep: advance the virtual clock, credit the pacing budgets and flag
the pause. -/
def applySleep (c : Cpu) (ns : Nat) : Cpu :=
  let ns := min ns maxSleepNs
  let stepRefund := min (ns / sleepStepRefundNsPerStep) (maxRefundSteps - c.refundStepsTotal)
  let byteRefund := if 0 < stepRefund then
      min (ns / sleepOutputRefundNsPerByte) (maxRefundOutputBytes - c.refundOutputTotal)
    else 0
  { c with
    term := { c.term with virtualNs := saturatingAdd c.term.virtualNs ns }
    refundStepsTotal := c.refundStepsTotal + stepRefund
    stepsTotal := c.stepsTotal - stepRefund
    refundOutputTotal := c.refundOutputTotal + byteRefund
    outputTotal := c.outputTotal - byteRefund
    pendingSleepNs := some ns }

/-- The side state a stub borrows. -/
def hostSide (c : Cpu) : HostSide where
  stdout := c.stdout
  stderr := c.stderr
  stdin := c.stdin
  vfs := c.vfs
  openFiles := c.openFiles
  nextFd := c.nextFd
  randState := c.randState
  term := c.term
  strtokSave := c.strtokSave
  callbacks := c.callbacks
  callScratch := c.callScratch

/-- Run a stub or a syscall.  Only `printf` and `scanf` (`cards`) are lent the call
record. -/
def runHost (c : Cpu) (fn : HostFn) (cards : Bool) : Cpu × Except EmuError HostOutcome :=
  let (machine, side, outcome) := (fn c.hostSide c.stdinClosed c.machine).run c.machine
  ({ c with
      machine := machine
      stdout := side.stdout, stderr := side.stderr, stdin := side.stdin, vfs := side.vfs
      openFiles := side.openFiles, nextFd := side.nextFd, randState := side.randState
      term := side.term, strtokSave := side.strtokSave, callbacks := side.callbacks
      callScratch := if cards then side.callScratch else c.callScratch },
    outcome)

end Cpu

end Playground
