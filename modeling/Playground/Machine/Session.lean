/-
What a host drives between steps: input and files, recording, named saves, loads and
resets, runs, and the session that these events drive.
-/
import Playground.Machine.RunUntil

namespace Playground

def maxVfsFileBytes : Nat := 4 * 1024 * 1024

def maxVfsTotalBytes : Nat := 4 * 1024 * 1024

def maxVfsFiles : Nat := 16

/-- One named save: the whole state. -/
structure SavedState extends Copied where
  regs : RegisterFile
  mem : Memory
  heap : HeapState
  frames : CallStack
  call : Option CallRecord

namespace Cpu

/-- The save of the cpu as it stands. -/
def savedState (c : Cpu) : SavedState where
  toCopied := c.toCopied
  regs := c.regs
  mem := c.mem
  heap := c.machine.heap
  frames := c.frames
  call := some c.lastCall

/-- Restore a save.  The recorded history ends, and so does a recorded abort; the step
and output budgets stay. -/
def restoreSaved (c : Cpu) (snap : SavedState) : Cpu :=
  let c := c.restoreFrom { blankFrame with toCopied := snap.toCopied, call := snap.call }
  { c with
    machine := ⟨snap.regs, snap.mem, snap.heap⟩
    frames := snap.frames
    snapshots := { c.snapshots with frames := [] }
    abortMessage := none }

def pushStdin (c : Cpu) (bytes : List Byte) : Cpu := c.queueStdin bytes false

def pushStdinInteractive (c : Cpu) (bytes : List Byte) : Cpu := c.queueStdin bytes true

/-- The virtual files with `path` holding `data`. -/
def insertFile (vfs : List (String × List Byte)) (path : String) (data : List Byte) :
    List (String × List Byte) :=
  if vfs.any fun file => file.1 == path then
    vfs.map fun file => if file.1 == path then (path, data) else file
  else vfs ++ [(path, data)]

/-- Register a virtual file, within the walls of the syscalls; whether it was stored. -/
def uploadVfsFile (c : Cpu) (path : String) (data : List Byte) : Cpu × Bool :=
  let replaced := ((c.vfs.find? fun file => file.1 == path).map fun file => file.2.length).getD 0
  let total := (c.vfs.map fun file => file.2.length).sum
  if maxVfsFileBytes < data.length then (c, false)
  else if maxVfsTotalBytes < total - replaced + data.length then (c, false)
  else if (c.vfs.all fun file => file.1 != path) ∧ maxVfsFiles ≤ c.vfs.length then (c, false)
  else ({ c with vfs := insertFile c.vfs path data }, true)

def deleteVfsFile (c : Cpu) (path : String) : Cpu :=
  { c with vfs := c.vfs.filter fun file => file.1 != path }

def setSnapshotsPaused (c : Cpu) (paused : Bool) : Cpu := { c with snapshotsPaused := paused }

/-- Drain the output shown so far. -/
def takeStdout (c : Cpu) : Cpu × List Byte := ({ c with stdout := [] }, c.stdout)

def takeStderr (c : Cpu) : Cpu × List Byte := ({ c with stderr := [] }, c.stderr)

def clearConsole (c : Cpu) : Cpu := { c with stdout := [], stderr := [] }

def takePendingSleepNs (c : Cpu) : Cpu × Option Nat :=
  ({ c with pendingSleepNs := none }, c.pendingSleepNs)

def takeClobberNotes (c : Cpu) : Cpu × List (BitVec 32) :=
  ({ c with clobberNotes := [] }, c.clobberNotes)

/-- Drain the list of memory writes. -/
def takeDirty (c : Cpu) : Cpu × List (Nat × Nat) :=
  let (mem, dirty) := c.mem.takeDirty
  (c.setMem mem, dirty)

def setMaxTotalSteps (c : Cpu) (ceiling : Nat) : Cpu := { c with maxTotalSteps := ceiling }

end Cpu

/-- What a host may change between two steps of the program. -/
inductive HostUpdate
  | pushStdin (bytes : List Byte)
  | pushStdinInteractive (bytes : List Byte)
  | closeStdin
  | uploadVfsFile (path : String) (data : List Byte)
  | deleteVfsFile (path : String)

def HostUpdate.apply (c : Cpu) : HostUpdate → Cpu
  | .pushStdin bytes => c.pushStdin bytes
  | .pushStdinInteractive bytes => c.pushStdinInteractive bytes
  | .closeStdin => c.closeStdin
  | .uploadVfsFile path data => (c.uploadVfsFile path data).1
  | .deleteVfsFile path => c.deleteVfsFile path

/-- What a host may read out and clear between two steps. -/
inductive HostDrain
  | takeStdout
  | takeStderr
  | clearConsole
  | takePendingSleepNs
  | takeClobberNotes
  | takeDirty

def HostDrain.apply (c : Cpu) : HostDrain → Cpu
  | .takeStdout => c.takeStdout.1
  | .takeStderr => c.takeStderr.1
  | .clearConsole => c.clearConsole
  | .takePendingSleepNs => c.takePendingSleepNs.1
  | .takeClobberNotes => c.takeClobberNotes.1
  | .takeDirty => c.takeDirty.1

/-- One call a host makes. -/
inductive Event
  | step
  | runUntil (maxSteps : Nat) (goal : Until)
  | stepBack
  | setSnapshotsPaused (paused : Bool)
  | update (u : HostUpdate)
  | drain (d : HostDrain)
  | saveState (name : String)
  | loadState (name : String)
  | deleteState (name : String)
  | reset
  | loadProgram (code : List (BitVec 32))
  | loadLinkedImage (image : LinkedImage) (args : List String)
  | loadSections (program : Program)
  | setBreakpoint (addr : Word)
  | clearBreakpoint (addr : Word)
  | clearAllBreakpoints

/-- A cpu with its breakpoints and its named saves. -/
structure Session where
  cpu : Cpu
  breakpoints : Finset Word
  named : String → Option SavedState

namespace Session

/-- A new machine whose step wall stands at `ceiling`. -/
def start (ceiling : Nat) : Session := ⟨Cpu.fresh.setMaxTotalSteps ceiling, ∅, fun _ => none⟩

/-- The session after one event; `none` is a panic of a load or a reset. -/
def handle (p : Platform) (s : Session) : Event → Option Session
  | .step => some { s with cpu := (s.cpu.step p).1 }
  | .runUntil maxSteps goal =>
      some { s with cpu := (s.cpu.runUntil p s.breakpoints goal maxSteps).1 }
  | .stepBack => some { s with cpu := s.cpu.stepBack.1 }
  | .setSnapshotsPaused paused => some { s with cpu := s.cpu.setSnapshotsPaused paused }
  | .update u => some { s with cpu := u.apply s.cpu }
  | .drain d => some { s with cpu := d.apply s.cpu }
  | .saveState name => some { s with named := Function.update s.named name s.cpu.savedState }
  | .loadState name =>
      match s.named name with
      | some snap => some { s with cpu := s.cpu.restoreSaved snap }
      | none => some s
  | .deleteState name => some { s with named := Function.update s.named name none }
  | .reset => s.cpu.reset.map fun c => { s with cpu := c }
  | .loadProgram code => (s.cpu.loadProgram code).map fun c => { s with cpu := c }
  | .loadLinkedImage image args =>
      some { s with cpu := (s.cpu.loadLinkedImageWithArgs p image args).1 }
  | .loadSections program => some { s with cpu := (s.cpu.loadSections program).1 }
  | .setBreakpoint addr => some { s with breakpoints := insert addr s.breakpoints }
  | .clearBreakpoint addr => some { s with breakpoints := s.breakpoints.erase addr }
  | .clearAllBreakpoints => some { s with breakpoints := ∅ }

end Session

end Playground
