/-
One step of the cpu, and its inverse.
-/
import Playground.Machine.Cpu

namespace Playground

def callPrintf : Nat := 1

def callScanf : Nat := 2

def readByInstruction : BitVec 32 := 0

def readByCall : BitVec 32 := 1

def readByMainReturn : BitVec 32 := 2

namespace Cpu

variable (p : Platform)

/-- Name of the host function the pc is inside: a stub, or one of the image's
trampoline slots. -/
def hostCallName (c : Cpu) (pc : Word) : Option String :=
  match p.host.nameForAddress pc with
  | some name => if name = "__main_return" then none else some name
  | none =>
      let span := c.trampolineNames.length * 8
      if c.trampolineBase.toNat ≤ pc.toNat ∧ pc.toNat < c.trampolineBase.toNat + span ∧
          pc.toNat % 4 = 0 then
        c.trampolineNames[(pc.toNat - c.trampolineBase.toNat) / 8]?
      else none

/-- The error for a read a library routine made through an address no section
covers. -/
def libcReadFault (c : Cpu) (pc address : Word) : Cpu × EmuError :=
  match c.hostCallName p pc with
  | none => (c, .memoryFault address .read)
  | some call =>
      let (c, x0) := c.readGpr 0
      if x0 = address then
        (c, .runtimeError ("Segmentation fault\n" ++ call ++
          " reads memory at x0, but x0 holds 0x" ++ hexText address.toNat ++
          ", not an address: put `ldr x0, =fmt` right before `bl " ++ call ++
          "`, where fmt is the label on the string it needs"))
      else (c, .memoryFault address .read)

/-- Take out of `read` what the instruction at `pc` read without using the value. -/
def dropPassiveReads (c : Cpu) (pc : Word) (read : BitVec 64) : Cpu × BitVec 64 :=
  match c.mem.readU32 pc with
  | .error _ => (c, read)
  | .ok word =>
      match p.decode word with
      | .error _ => (c, read)
      | .ok instr =>
          match p.passiveRead instr with
          | .stored data => (c, read &&& ~~~data)
          | .copied source dest =>
              if read.getLsbD source then
                (c.setRegs (c.regs.carryClobber source dest (pc.setWidth 32)),
                  read &&& ~~~(1#64 <<< source))
              else (c, read)
          | .used => (c, read)

/-- Note one register the step used while it still held a call's leftovers. -/
def noteRead (readBy : BitVec 32) (readPc : Word) (read : BitVec 64) (c : Cpu) (code : Nat) :
    Cpu :=
  if read.getLsbD code then
    let origin := c.regs.clobberOrigins (Fin.ofNat 64 code)
    let noted : BitVec 64 := 1#64 <<< origin.register
    if c.clobberNoted &&& noted ≠ 0 then c
    else
      let register := BitVec.ofNat 32 origin.register
      let row := if origin.copiedAt ≠ 0 then
          [register, readByInstruction, origin.callPc, origin.copiedAt]
        else [register, readBy, origin.callPc, readPc.setWidth 32]
      { c with
        clobberNoted := c.clobberNoted ||| noted
        clobberNotes := c.clobberNotes ++ row }
  else c

/-- What read a register a call overwrote, and from where: `pc` and `lr` are from
before the step. -/
def readerOf (pc lr : Word) : BitVec 32 × Word :=
  if p.host.lookup "__main_return" = some pc then (readByMainReturn, pc)
  else if p.host.containsAddress pc then (readByCall, lr - 4)
  else (readByInstruction, pc)

/-- One note per register a library call overwrote that the step used. -/
def noteClobberedReads (c : Cpu) (pc lr : Word) : Cpu :=
  let (regs, reads) := c.regs.takeClobberedReads
  let c := c.setRegs regs
  if reads.isEmpty then c
  else
    let (readBy, readPc) := readerOf p pc lr
    let read : BitVec 64 := reads.d ++ reads.x
    let (c, read) := if readBy = readByInstruction then c.dropPassiveReads p pc read
      else (c, read)
    (List.range 64).foldl (noteRead readBy readPc read) c

/-- What a real library call leaves behind, applied as the call returns. -/
def clobberAfterCall (c : Cpu) (stubPc : Word) : Cpu :=
  let (c, lr) := c.readGpr 30
  let c := c.noteClobberedReads p stubPc lr
  let name := (p.host.nameForAddress stubPc).getD ""
  let inD0 := decide (name ∈ returnsInD0)
  let inX0 := !inD0 && !decide (name ∈ returnsNothing)
  c.setRegs (c.regs.clobberCallerSaved inX0 inD0 (lr - 4))

def returnToLr (c : Cpu) : Cpu :=
  let (c, lr) := c.readGpr 30
  c.setRegs (c.regs.writePc lr)

/-- Make the `printf` or `scanf` call this step ran the last call.  The step's frame
keeps the one it replaced. -/
def keepCall (c : Cpu) (kind : Nat) (failed : Bool) : Cpu :=
  let call := { c.callScratch with
    kind := kind, step := c.stepsTaken, callPc := c.lastProgramPc
    result := c.regs.snapshot 0, failed := failed }
  let old := c.lastCall
  let c := { c with lastCall := call, callScratch := default }
  match c.snapshots.newest with
  | some _ =>
      { c with snapshots := c.snapshots.updateNewest fun frame => { frame with call := some old } }
  | none => { c with callScratch := old }

/-- Only `printf` and `scanf` get a call card. -/
def cardKind (pc : Word) : Nat :=
  match p.host.nameForAddress pc with
  | some name =>
      if name = "printf" then callPrintf
      else if name = "scanf" ∨ name = "__isoc99_scanf" then callScanf
      else 0
  | none => 0

def applyStubOutcome (c : Cpu) (pc : Word) : HostOutcome → Cpu
  | .continue => (c.clobberAfterCall p pc).returnToLr
  | .needInput => { c with blocked := true }
  | .sleep ns => ((c.applySleep ns).clobberAfterCall p pc).returnToLr
  | .exited code => { c with exitCode := some code, halted := true }
  | .call target =>
      let c := c.setRegs (c.regs.writePc target)
      if c.inProgram target then
        c.onFrames fun frames log => frames.onRuntimeCall pc target c.regs.snapshot log
      else c

def stubStepOutcome : HostOutcome → StepOutcome
  | .continue => .advance
  | .call _ => .advance
  | .needInput => .waitingForInput
  | .sleep ns => .sleeping (min ns maxSleepNs)
  | .exited code => .exited code

/-- Keep the call card of a stub that began one.  A call waiting on input runs again
from the start once it comes. -/
def keepCard (c : Cpu) (kind : Nat) : Except EmuError HostOutcome → Cpu
  | .ok .needInput => c
  | .ok _ => if c.callScratch.began then c.keepCall kind false else c
  | .error _ => if c.callScratch.began then c.keepCall kind true else c

/-- Note the stub being dispatched: a comparator returns to it. -/
def enterStub (c : Cpu) (pc : Word) : Cpu :=
  { c with
    callbacks := { c.callbacks with stubPc := pc }
    callScratch := { c.callScratch with began := false } }

def dispatchHostStub (c : Cpu) (pc : Word) (fn : HostFn) : Cpu × Except EmuError StepResult :=
  let kind := cardKind p pc
  let (c, outcome) := (c.enterStub pc).runHost fn (kind ≠ 0)
  let c := c.keepCard kind outcome
  match outcome with
  | .error e => (c, .error e)
  | .ok hostOutcome =>
      let c := c.applyStubOutcome p pc hostOutcome
      (c, .ok ⟨c.regs.pc, c.halted, none, stubStepOutcome hostOutcome⟩)

def dispatchSyscall (c : Cpu) (number : Nat) : Cpu × Except EmuError Unit :=
  let (c, outcome) := c.runHost (p.syscall number) false
  match outcome with
  | .error e => (c, .error e)
  | .ok .continue => (c, .ok ())
  | .ok (.call _) => (c, .ok ())
  | .ok .needInput => ({ c with blocked := true }, .ok ())
  | .ok (.sleep ns) => (c.applySleep ns, .ok ())
  | .ok (.exited code) => ({ c with exitCode := some code, halted := true }, .ok ())

/-- A pc on a host stub: run the stub instead of fetching an instruction. -/
def stubStep (c : Cpu) (pc : Word) (fn : HostFn) : Cpu × StepResult :=
  let sp := c.regs.sp
  if sp.toNat % 16 ≠ 0 ∧ p.host.lookup "__main_return" ≠ some pc then
    c.runtimeErrorHalt (.spAlignmentFault sp true)
  else
    let outBefore := c.stdout.length
    let errBefore := c.stderr.length
    let moved := c.mem.bytesWritten
    let queued := c.stdin.length
    let (c, dispatched) := c.dispatchHostStub p pc fn
    let c := (c.echoConsumedStdin queued).chargeBulkWork moved
    let (c, breached) := c.chargeOutput outBefore errBefore
    if breached then c.outputCapHalt
    else
      match dispatched with
      | .ok result => (c, result)
      | .error (.memoryFault _ .write) => c.memoryCapHalt
      | .error (.memoryFault address .read) =>
          let (c, e) := c.libcReadFault p pc address
          c.runtimeErrorHalt e
      | .error e => c.runtimeErrorHalt e

/-- The tail of an instruction that trapped with a syscall number in x8: `none` when
it completed, a halt otherwise. -/
def syscallStep (c : Cpu) (pc : Word) (number : Nat) : Cpu × Option StepResult :=
  let outBefore := c.stdout.length
  let errBefore := c.stderr.length
  let moved := c.mem.bytesWritten
  let queued := c.stdin.length
  let (c, dispatched) := c.dispatchSyscall p number
  let c := (c.echoConsumedStdin queued).chargeBulkWork moved
  let (c, breached) := c.chargeOutput outBefore errBefore
  if breached then
    let (c, result) := c.outputCapHalt
    (c, some result)
  else
    match dispatched with
    | .error (.memoryFault _ .write) =>
        let (c, result) := c.memoryCapHalt
        (c, some result)
    | .error e =>
        let (c, result) := c.runtimeErrorHalt e
        (c, some result)
    | .ok () => (if c.blocked then c else c.setRegs (c.regs.writePc (pc + 4)), none)

/-- An instruction that trapped: x8 = 0 keeps the legacy halt, anything else is a
syscall number. -/
def trapStep (c : Cpu) (pc : Word) (result : ExecResult) : Cpu × Option StepResult :=
  if result = .syscall then
    let (c, number) := c.readGpr 8
    if number = 0 then ({ c with halted := true }, none)
    else c.syscallStep p pc number.toNat
  else (c, none)

/-- What follows an instruction that executed: the pc, the call stack, a halt or a
syscall. -/
def finishInstruction (c : Cpu) (pc : Word) (kind : CallKind) (result : ExecResult) :
    Cpu × StepResult :=
  let c := if result = .advance then c.setRegs (c.regs.writePc (pc + 4)) else c
  let c := c.trackCallOrReturn pc kind
  let c := if result = .halted then { c with halted := true } else c
  match c.trapStep p pc result with
  | (c, some result) => (c, result)
  | (c, none) =>
      let (c, outcome) := c.classifyOutcome
      (c, ⟨c.regs.pc, c.halted, none, outcome⟩)

def executeInstruction (c : Cpu) (instr : p.Instr) : Cpu × Except EmuError ExecResult :=
  let (machine, result) := (p.execute instr c.machine).run c.machine
  ({ c with machine := machine }, result)

/-- Fetch, decode and execute the instruction at `pc`. -/
def instructionStep (c : Cpu) (pc : Word) : Cpu × StepResult :=
  if c.textEnd = some pc then
    ({ c with halted := true, abortMessage := some pastEndMessage },
      ⟨pc, true, some pastEndMessage, .halted⟩)
  else
    let c := if c.inProgram pc then { c with lastProgramPc := pc } else c
    match c.mem.readU32 pc with
    | .error e => c.runtimeErrorHalt e
    | .ok word =>
        match p.decode word with
        | .error e => c.runtimeErrorHalt e
        | .ok instr =>
            let (c, result) := c.executeInstruction p instr
            match result with
            | .error (.memoryFault _ .write) => c.memoryCapHalt
            | .error e => c.runtimeErrorHalt e
            | .ok result => c.finishInstruction p pc (p.callKind instr) result

/-- The part of a step that runs once the frame is open. -/
def countedStep (c : Cpu) (pc : Word) : Cpu × StepResult :=
  let c := { c with stepsTotal := c.stepsTotal + 1, stepsTaken := c.stepsTaken + 1 }
  match p.host.entryAt pc with
  | some entry => c.stubStep p pc entry.2
  | none => c.instructionStep p pc

def executeStep (c : Cpu) : Cpu × StepResult :=
  if c.halted then
    (c, ⟨c.regs.pc, true, none,
      match c.exitCode with
      | some code => .exited code
      | none => .halted⟩)
  else if c.blocked then (c, ⟨c.regs.pc, false, none, .waitingForInput⟩)
  else
    let c := { c with pendingSleepNs := none }
    match c.checkRunawayWalls with
    | (c, some halt) => (c, halt)
    | (c, none) => c.captureStepSnapshot.countedStep p c.regs.pc

/-- Check the step's writes against every caller's frame record. -/
def watchFrameRecords (c : Cpu) (pc lr : Word) : Cpu :=
  let writes := c.mem.stepWrites
  if writes.isEmpty then c
  else
    let writer := (if p.host.containsAddress pc then lr - 4 else pc, c.regs.snapshot 29)
    c.onFrames fun frames log => frames.watchWrites writes c.stepsTaken c.mem writer log

/-- Execute one instruction at the current pc. -/
def step (c : Cpu) : Cpu × StepResult :=
  let pc := c.regs.pc
  let (c, lr) := c.readGpr 30
  let c := c.setRegs c.regs.takeClobberedReads.1
  let c := c.setMem c.mem.startStep
  let (c, result) := c.executeStep p
  let c := (c.watchFrameRecords p pc lr).noteClobberedReads p pc lr
  (c.closeStepFrame, result)

/-- Restore everything a frame copied. -/
def restoreFrom (c : Cpu) (frame : StepFrame) : Cpu :=
  { c with
    halted := frame.halted
    blocked := frame.blocked
    exitCode := frame.exitCode
    stdin := frame.stdin
    stdinSegments := frame.stdinSegments
    stdinClosed := frame.stdinClosed
    vfs := frame.vfs
    openFiles := frame.openFiles
    nextFd := frame.nextFd
    randState := frame.randState
    term := frame.term
    strtokSave := frame.strtokSave
    callbacks := frame.callbacks
    stdoutSeen := frame.stdoutSeen
    stderrSeen := frame.stderrSeen
    stepsTaken := frame.stepsTaken
    lastProgramPc := frame.lastProgramPc
    lastCall := frame.call.getD c.lastCall
    pendingSleepNs := none }

/-- Take one frame back: its copies and its four undo logs. -/
def undoFrame (c : Cpu) (frame : StepFrame) : Cpu :=
  let c := { c with stepsTotal := frame.stepsTotal }
  let c := c.restoreFrom frame
  { c with
    machine := ⟨c.regs.undoStep frame.regs, c.mem.undoStep frame.mem,
      c.machine.heap.undoStep frame.heap⟩
    frames := c.frames.undoStep frame.frames
    abortMessage := none }

/-- Where the cpu stands, for the caller of `stepBack`. -/
def standing (c : Cpu) : StepOutcome :=
  if c.halted then
    match c.exitCode with
    | some code => .exited code
    | none => .halted
  else if c.blocked then .waitingForInput
  else .advance

/-- Restore the cpu to the state it was in before the most recent step. -/
def stepBack (c : Cpu) : Cpu × StepOutcome :=
  match c.snapshots.newest with
  | none => (c, c.standing)
  | some frame =>
      let c := { c with snapshots := { c.snapshots with frames := c.snapshots.frames.dropLast } }
      let c := c.undoFrame frame
      (c, c.standing)

end Cpu

end Playground
