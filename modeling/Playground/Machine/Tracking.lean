/-
What holds while a step runs.  Either the step is recorded, and the machine's logs
together with the newest frame lead back to the state it began in; or it is not, and
nothing is being logged.  Each piece of the step keeps this.
-/
import Playground.Machine.Step

namespace Playground

/-- Everything a step back has to restore: the small state, the registers with the
clobber bookkeeping, the contents and the set of mapped pages, the heap, the call
stack with its tree and the call card. -/
structure CpuState extends Copied where
  regs : RegisterState
  pages : Pages
  zeroFill : List (Word × Word)
  heap : HeapTables
  frames : CallStack
  lastCall : CallRecord

def Cpu.state (c : Cpu) : CpuState where
  toCopied := c.toCopied
  regs := c.regs.toRegisterState
  pages := c.mem.pages
  zeroFill := c.mem.zeroFill
  heap := c.machine.heap.toHeapTables
  frames := c.frames
  lastCall := c.lastCall

/-- The machine partway through a step: recorded from `s`, or not recorded. -/
structure MachineTracks (mode : Option CpuState) (m : Machine) : Prop where
  budgeted : m.mem.Budgeted
  wellFormed : m.heap.WellFormed
  idle : mode = none → m.regs.recording = false ∧ m.mem.recording = false ∧
    m.heap.recording = false
  recorded : ∀ s, mode = some s → RegisterFile.Recorded s.regs m.regs ∧
    Memory.Recorded s.pages m.mem ∧ m.mem.zeroFill = s.zeroFill ∧
    HeapState.Recorded s.heap m.heap

namespace MachineTracks

variable {mode : Option CpuState} {m : Machine}

theorem regs (h : MachineTracks mode m) {regs : RegisterFile} {edits : List RegEdit}
    (hlogs : RegisterFile.Logs m.regs regs edits) :
    MachineTracks mode { m with regs := regs } := by
  refine ⟨h.budgeted, h.wellFormed, fun hmode => ?_, fun s hmode => ?_⟩
  · obtain ⟨hregs, hrest⟩ := h.idle hmode
    exact ⟨hlogs.recording.trans hregs, hrest⟩
  · obtain ⟨hregs, hrest⟩ := h.recorded s hmode
    exact ⟨hregs.logs hlogs, hrest⟩

theorem mem (h : MachineTracks mode m) {mem : Memory} (hkeeps : Memory.Keeps m.mem mem) :
    MachineTracks mode { m with mem := mem } := by
  refine ⟨hkeeps.budgeted h.budgeted, h.wellFormed, fun hmode => ?_, fun s hmode => ?_⟩
  · obtain ⟨hregs, hmem, hheap⟩ := h.idle hmode
    exact ⟨hregs, hkeeps.recording.trans hmem, hheap⟩
  · obtain ⟨hregs, hmem, hzero, hheap⟩ := h.recorded s hmode
    exact ⟨hregs, hkeeps.recorded _ h.budgeted hmem, hkeeps.zeroFill.trans hzero, hheap⟩

theorem heap (h : MachineTracks mode m) {heap : HeapState}
    (hkeeps : HeapState.Keeps m.heap heap) : MachineTracks mode { m with heap := heap } := by
  obtain ⟨edits, hlogs⟩ := hkeeps.logs
  refine ⟨h.budgeted, hkeeps.wellFormed, fun hmode => ?_, fun s hmode => ?_⟩
  · obtain ⟨hregs, hmem, hheap⟩ := h.idle hmode
    exact ⟨hregs, hmem, hlogs.recording.trans hheap⟩
  · obtain ⟨hregs, hmem, hzero, hheap⟩ := h.recorded s hmode
    exact ⟨hregs, hmem, hzero, hheap.keeps hkeeps⟩

/-- Whatever a routine does, it does through the logged methods. -/
theorem routine {ρ : Type} (h : MachineTracks mode m) (r : Routine ρ) :
    MachineTracks mode (r.run m).1 := by
  refine r.run_induction h fun m op hm => ?_
  cases op with
  | reg call =>
      obtain ⟨edits, hlogs⟩ := RegisterFile.logs_run m.regs call
      exact hm.regs hlogs
  | mem call => exact hm.mem (Memory.keeps_run m.mem call)
  | heap call => exact hm.heap (HeapState.keeps_run hm.wellFormed call)

end MachineTracks

/-- The ring, the call stack and the call card partway through a step.  `fresh` says
that the step has not touched the call stack yet, `unread` that it has kept no call
card. -/
structure RingTracks (mode : Option CpuState) (older : List StepFrame) (fresh unread : Prop)
    (ring : List StepFrame) (frames : CallStack) (lastCall : CallRecord) : Prop where
  idle : mode = none → ring = []
  recorded : ∀ s, mode = some s → ∃ frame, ring = older ++ [frame] ∧
    frame.toCopied = s.toCopied ∧ CallStack.Recorded s.frames frames frame.frames ∧
    frame.call.getD lastCall = s.lastCall ∧
    (fresh → frames = s.frames ∧ frame.frames = s.frames.recordUndo) ∧
    (unread → frame.call = none)

/-- The whole cpu partway through a step. -/
structure Tracks (mode : Option CpuState) (older : List StepFrame) (capacity : Nat)
    (fresh unread : Prop) (c : Cpu) : Prop where
  machine : MachineTracks mode c.machine
  ring : RingTracks mode older fresh unread c.snapshots.frames c.frames c.lastCall
  capacity : c.snapshots.capacity = capacity

namespace Tracks

variable {mode : Option CpuState} {older : List StepFrame} {capacity : Nat}
variable {fresh unread : Prop} {c : Cpu}

/-- Forget that the step has not touched the call stack or the card. -/
theorem touched (h : Tracks mode older capacity fresh unread c) :
    Tracks mode older capacity False False c := by
  refine ⟨h.machine, ⟨h.ring.idle, fun s hs => ?_⟩, h.capacity⟩
  obtain ⟨frame, hring, hcopied, hstack, hcall, -, -⟩ := h.ring.recorded s hs
  exact ⟨frame, hring, hcopied, hstack, hcall, False.elim, False.elim⟩

/-- A change of the machine alone, and of fields no log covers. -/
theorem plain (h : Tracks mode older capacity fresh unread c) {c' : Cpu}
    (hmachine : MachineTracks mode c'.machine) (hframes : c'.frames = c.frames)
    (hring : c'.snapshots = c.snapshots) (hcall : c'.lastCall = c.lastCall) :
    Tracks mode older capacity fresh unread c' := by
  refine ⟨hmachine, ?_, by rw [hring]; exact h.capacity⟩
  rw [hframes, hring, hcall]
  exact h.ring

theorem setRegs (h : Tracks mode older capacity fresh unread c) {regs : RegisterFile}
    {edits : List RegEdit} (hlogs : RegisterFile.Logs c.regs regs edits) :
    Tracks mode older capacity fresh unread (c.setRegs regs) :=
  h.plain (h.machine.regs hlogs) rfl rfl rfl

theorem readGpr (h : Tracks mode older capacity fresh unread c) (index : Nat) :
    Tracks mode older capacity fresh unread (c.readGpr index).1 := by
  obtain ⟨edits, hlogs⟩ := RegisterFile.logs_run c.regs (.readGpr index true)
  exact h.setRegs hlogs

theorem writePc (h : Tracks mode older capacity fresh unread c) (value : Word) :
    Tracks mode older capacity fresh unread (c.setRegs (c.regs.writePc value)) := by
  obtain ⟨edits, hlogs⟩ := RegisterFile.logs_run c.regs (.writePc value)
  exact h.setRegs hlogs

theorem haltWith (h : Tracks mode older capacity fresh unread c) (message : String) :
    Tracks mode older capacity fresh unread (c.haltWith message).1 :=
  h.plain h.machine rfl rfl rfl

theorem runHost (h : Tracks mode older capacity fresh unread c) (fn : HostFn) (cards : Bool) :
    Tracks mode older capacity fresh unread (c.runHost fn cards).1 :=
  h.plain (h.machine.routine _) rfl rfl rfl

theorem chargeOutput (h : Tracks mode older capacity fresh unread c) (out err : Nat) :
    Tracks mode older capacity fresh unread (c.chargeOutput out err).1 :=
  h.plain h.machine rfl rfl rfl

/-- An operation of the call stack against the newest frame's log. -/
theorem onFrames (h : Tracks mode older capacity fresh unread c)
    {op : CallStack → Option FrameUndo → CallStack × Option FrameUndo}
    (hop : ∀ s frame, mode = some s → CallStack.Recorded s.frames c.frames frame →
      (fresh → c.frames = s.frames ∧ frame = s.frames.recordUndo) →
      ∃ t log, op c.frames (some frame) = (t, some log) ∧ CallStack.Recorded s.frames t log) :
    Tracks mode older capacity False unread (c.onFrames op) := by
  refine ⟨h.machine, ⟨fun hmode => ?_, fun s hmode => ?_⟩, ?_⟩
  · have hring := h.ring.idle hmode
    simp [Cpu.onFrames, SnapshotRing.updateNewest, hring]
  · obtain ⟨frame, hring, hcopied, hstack, hcall, hfresh, hunread⟩ := h.ring.recorded s hmode
    obtain ⟨t, log, hvalue, hrec⟩ := hop s frame.frames hmode hstack hfresh
    refine ⟨{ frame with frames := log }, ?_, hcopied, ?_, hcall, False.elim, hunread⟩
    · simp [Cpu.onFrames, SnapshotRing.updateNewest, SnapshotRing.newest, hring, hvalue]
    · simpa [Cpu.onFrames, SnapshotRing.newest, hring, hvalue] using hrec
  · have hcap := h.capacity
    simp only [Cpu.onFrames, SnapshotRing.updateNewest]
    split <;> exact hcap

theorem keepCall (h : Tracks mode older capacity fresh True c) (kind : Nat) (failed : Bool) :
    Tracks mode older capacity fresh False (c.keepCall kind failed) := by
  refine ⟨?_, ⟨fun hmode => ?_, fun s hmode => ?_⟩, ?_⟩
  · simp only [Cpu.keepCall]
    split <;> exact h.machine
  · have hring := h.ring.idle hmode
    simp [Cpu.keepCall, SnapshotRing.newest, hring]
  · obtain ⟨frame, hring, hcopied, hstack, hcall, hfresh, hunread⟩ := h.ring.recorded s hmode
    have hold : c.lastCall = s.lastCall := by simpa [hunread trivial] using hcall
    refine ⟨{ frame with call := some c.lastCall }, ?_, hcopied, ?_, hold, ?_, False.elim⟩
    · simp [Cpu.keepCall, SnapshotRing.updateNewest, SnapshotRing.newest, hring]
    · simpa [Cpu.keepCall, SnapshotRing.newest, hring] using hstack
    · simpa [Cpu.keepCall, SnapshotRing.newest, hring] using hfresh
  · have hcap := h.capacity
    simp only [Cpu.keepCall, SnapshotRing.updateNewest]
    split
    · split <;> exact hcap
    · exact hcap

variable (p : Platform)

theorem dropPassiveReads (h : Tracks mode older capacity fresh unread c) (pc : Word)
    (read : BitVec 64) :
    Tracks mode older capacity fresh unread (c.dropPassiveReads p pc read).1 := by
  unfold Cpu.dropPassiveReads
  split
  · exact h
  split
  · exact h
  split
  · exact h
  · split
    · obtain ⟨edits, hlogs⟩ := RegisterFile.logs_carryClobber c.regs _ _ (pc.setWidth 32)
      exact h.setRegs hlogs
    · exact h
  · exact h

theorem noteRead (h : Tracks mode older capacity fresh unread c) (readBy : BitVec 32)
    (readPc : Word) (read : BitVec 64) (code : Nat) :
    Tracks mode older capacity fresh unread (Cpu.noteRead readBy readPc read c code) := by
  unfold Cpu.noteRead
  split
  · simp only
    split
    · exact h
    · exact h.plain h.machine rfl rfl rfl
  · exact h

theorem noteClobberedReads (h : Tracks mode older capacity fresh unread c) (pc lr : Word) :
    Tracks mode older capacity fresh unread (c.noteClobberedReads p pc lr) := by
  have htaken : Tracks mode older capacity fresh unread
      (c.setRegs c.regs.takeClobberedReads.1) :=
    h.setRegs (RegisterFile.logs_takeClobberedReads c.regs)
  have hfold : ∀ (codes : List Nat) (readBy : BitVec 32) (readPc : Word) (read : BitVec 64)
      (c : Cpu), Tracks mode older capacity fresh unread c →
      Tracks mode older capacity fresh unread
        (codes.foldl (Cpu.noteRead readBy readPc read) c) := by
    intro codes readBy readPc read
    induction codes with
    | nil => exact fun c hc => hc
    | cons code codes ih => exact fun c hc => ih _ (hc.noteRead readBy readPc read code)
  unfold Cpu.noteClobberedReads
  simp only
  split
  · exact htaken
  · refine hfold _ _ _ _ _ ?_
    split
    · exact htaken.dropPassiveReads p pc _
    · exact htaken

theorem clobberAfterCall (h : Tracks mode older capacity fresh unread c) (stubPc : Word) :
    Tracks mode older capacity fresh unread (c.clobberAfterCall p stubPc) := by
  have hnoted := (h.readGpr 30).noteClobberedReads p stubPc (c.readGpr 30).2
  exact hnoted.setRegs (RegisterFile.logs_clobberCallerSaved _ _ _ _)

theorem returnToLr (h : Tracks mode older capacity fresh unread c) :
    Tracks mode older capacity fresh unread c.returnToLr :=
  (h.readGpr 30).writePc _

theorem applyStubOutcome (h : Tracks mode older capacity True unread c) (pc : Word)
    (outcome : HostOutcome) :
    Tracks mode older capacity False False (c.applyStubOutcome p pc outcome) := by
  cases outcome with
  | «continue» => exact (h.clobberAfterCall p pc).returnToLr.touched
  | needInput =>
      have hblocked : Tracks mode older capacity True unread { c with blocked := true } :=
        h.plain h.machine rfl rfl rfl
      exact hblocked.touched
  | sleep ns =>
      have hslept : Tracks mode older capacity True unread (c.applySleep ns) :=
        h.plain h.machine rfl rfl rfl
      exact (hslept.clobberAfterCall p pc).returnToLr.touched
  | exited code =>
      have hexited : Tracks mode older capacity True unread
          { c with exitCode := some code, halted := true } := h.plain h.machine rfl rfl rfl
      exact hexited.touched
  | call target =>
      have hpc := h.writePc target
      simp only [Cpu.applyStubOutcome]
      split
      · refine (hpc.onFrames fun s frame _ _ hfresh => ?_).touched
        obtain ⟨hframes, rfl⟩ := hfresh trivial
        rw [hframes]
        exact CallStack.recorded_onRuntimeCall s.frames pc target _
      · exact hpc.touched

theorem keepCard (h : Tracks mode older capacity fresh True c) (kind : Nat)
    (outcome : Except EmuError HostOutcome) :
    ∃ unread, Tracks mode older capacity fresh unread (c.keepCard kind outcome) := by
  unfold Cpu.keepCard
  split
  · exact ⟨True, h⟩
  · split
    · exact ⟨False, h.keepCall kind false⟩
    · exact ⟨True, h⟩
  · split
    · exact ⟨False, h.keepCall kind true⟩
    · exact ⟨True, h⟩

theorem dispatchHostStub (h : Tracks mode older capacity True True c) (pc : Word)
    (fn : HostFn) : Tracks mode older capacity False False (c.dispatchHostStub p pc fn).1 := by
  have hready : Tracks mode older capacity True True (c.enterStub pc) :=
    h.plain h.machine rfl rfl rfl
  have hran := hready.runHost fn (decide (Cpu.cardKind p pc ≠ 0))
  obtain ⟨unread, hkept⟩ := hran.keepCard (Cpu.cardKind p pc)
    ((c.enterStub pc).runHost fn (decide (Cpu.cardKind p pc ≠ 0))).2
  unfold Cpu.dispatchHostStub
  simp only
  split
  · exact hkept.touched
  · exact hkept.applyStubOutcome p pc _

theorem dispatchSyscall (h : Tracks mode older capacity fresh unread c) (number : Nat) :
    Tracks mode older capacity fresh unread (c.dispatchSyscall p number).1 := by
  have hran := h.runHost (p.syscall number) false
  unfold Cpu.dispatchSyscall
  simp only
  split
  · exact hran
  · exact hran
  · exact hran
  · exact hran.plain hran.machine rfl rfl rfl
  · exact hran.plain hran.machine rfl rfl rfl
  · exact hran.plain hran.machine rfl rfl rfl

theorem echoConsumedStdin (h : Tracks mode older capacity fresh unread c) (before : Nat) :
    Tracks mode older capacity fresh unread (c.echoConsumedStdin before) :=
  h.plain h.machine rfl rfl rfl

theorem chargeBulkWork (h : Tracks mode older capacity fresh unread c) (before : Nat) :
    Tracks mode older capacity fresh unread (c.chargeBulkWork before) :=
  h.plain h.machine rfl rfl rfl

theorem libcReadFault (h : Tracks mode older capacity fresh unread c) (pc address : Word) :
    Tracks mode older capacity fresh unread (c.libcReadFault p pc address).1 := by
  unfold Cpu.libcReadFault
  split
  · exact h
  · simp only
    split <;> exact h.readGpr 0

theorem stubStep (h : Tracks mode older capacity True True c) (pc : Word) (fn : HostFn) :
    Tracks mode older capacity False False (c.stubStep p pc fn).1 := by
  unfold Cpu.stubStep
  simp only
  split
  · exact h.touched.haltWith _
  · have hcharged := (((h.dispatchHostStub p pc fn).echoConsumedStdin
      c.stdin.length).chargeBulkWork c.mem.bytesWritten).chargeOutput
      c.stdout.length c.stderr.length
    split
    · exact hcharged.haltWith _
    · split
      · exact hcharged
      · exact hcharged.haltWith _
      · exact (hcharged.libcReadFault p pc _).haltWith _
      · exact hcharged.haltWith _

theorem syscallStep (h : Tracks mode older capacity fresh unread c) (pc : Word) (number : Nat) :
    Tracks mode older capacity fresh unread (c.syscallStep p pc number).1 := by
  have hcharged := (((h.dispatchSyscall p number).echoConsumedStdin
    c.stdin.length).chargeBulkWork c.mem.bytesWritten).chargeOutput
    c.stdout.length c.stderr.length
  unfold Cpu.syscallStep
  simp only
  split
  · exact hcharged.haltWith _
  · split
    · exact hcharged.haltWith _
    · exact hcharged.haltWith _
    · split
      · exact hcharged
      · exact hcharged.writePc _

theorem trackCallOrReturn (h : Tracks mode older capacity True unread c) (pc : Word)
    (kind : CallKind) :
    Tracks mode older capacity False unread (c.trackCallOrReturn pc kind) := by
  unfold Cpu.trackCallOrReturn
  cases kind with
  | call =>
      refine h.onFrames fun s frame _ _ hfresh => ?_
      obtain ⟨hframes, rfl⟩ := hfresh trivial
      rw [hframes]
      exact CallStack.recorded_onCall s.frames pc _ _ _ _
  | ret =>
      have hreturned : Tracks mode older capacity False unread (c.onFrames fun frames log =>
          (frames.onReturn pc c.regs.pc c.stepsTaken c.regs.snapshot (c.regs.writeWidth 0)
            log).1) := by
        refine h.onFrames fun s frame _ _ hfresh => ?_
        obtain ⟨hframes, rfl⟩ := hfresh trivial
        rw [hframes]
        exact CallStack.recorded_onReturn s.frames pc _ _ _ _
      simp only
      split
      · obtain ⟨edits, hlogs⟩ := RegisterFile.logs_markCalleeSaved _ _ pc
        exact hreturned.setRegs hlogs
      · exact hreturned
  | lrStore =>
      refine h.onFrames fun s frame _ _ hfresh => ?_
      obtain ⟨hframes, rfl⟩ := hfresh trivial
      rw [hframes]
      exact CallStack.recorded_onLrStore s.frames
  | other =>
      refine ⟨h.machine, ⟨h.ring.idle, fun s hs => ?_⟩, h.capacity⟩
      obtain ⟨frame, hring, hcopied, hstack, hcall, -, hunread⟩ := h.ring.recorded s hs
      exact ⟨frame, hring, hcopied, hstack, hcall, False.elim, hunread⟩

theorem classifyOutcome (h : Tracks mode older capacity fresh unread c) :
    Tracks mode older capacity fresh unread c.classifyOutcome.1 := by
  unfold Cpu.classifyOutcome
  split
  · exact h
  · split
    · exact h.plain h.machine rfl rfl rfl
    · split
      · exact h
      · split <;> exact h

theorem trapStep (h : Tracks mode older capacity fresh unread c) (pc : Word)
    (result : ExecResult) :
    Tracks mode older capacity fresh unread (c.trapStep p pc result).1 := by
  have hread := h.readGpr 8
  unfold Cpu.trapStep
  split
  · simp only
    split
    · exact hread.plain hread.machine rfl rfl rfl
    · exact hread.syscallStep p pc _
  · exact h

theorem finishInstruction (h : Tracks mode older capacity True unread c) (pc : Word)
    (kind : CallKind) (result : ExecResult) :
    Tracks mode older capacity False unread (c.finishInstruction p pc kind result).1 := by
  have hadvanced : Tracks mode older capacity True unread
      (if result = .advance then c.setRegs (c.regs.writePc (pc + 4)) else c) := by
    split
    · exact h.writePc _
    · exact h
  have htracked := hadvanced.trackCallOrReturn pc kind
  unfold Cpu.finishInstruction
  simp only
  generalize Cpu.trackCallOrReturn (if result = .advance then
    c.setRegs (c.regs.writePc (pc + 4)) else c) pc kind = c₁ at htracked ⊢
  have hhalted : Tracks mode older capacity False unread
      (if result = .halted then { c₁ with halted := true } else c₁) := by
    split
    · exact htracked.plain htracked.machine rfl rfl rfl
    · exact htracked
  have htrapped := hhalted.trapStep p pc result
  split
  · next c₂ result' hvalue =>
      rw [hvalue] at htrapped
      exact htrapped
  · next c₂ hvalue =>
      rw [hvalue] at htrapped
      exact htrapped.classifyOutcome

theorem executeInstruction (h : Tracks mode older capacity fresh unread c) (instr : p.Instr) :
    Tracks mode older capacity fresh unread (c.executeInstruction p instr).1 :=
  h.plain (h.machine.routine _) rfl rfl rfl

theorem instructionStep (h : Tracks mode older capacity True True c) (pc : Word) :
    Tracks mode older capacity False False (c.instructionStep p pc).1 := by
  unfold Cpu.instructionStep
  split
  · have hended : Tracks mode older capacity True True
        { c with halted := true, abortMessage := some pastEndMessage } :=
      h.plain h.machine rfl rfl rfl
    exact hended.touched
  · have hpc : Tracks mode older capacity True True
        (if c.inProgram pc then { c with lastProgramPc := pc } else c) := by
      split
      · exact h.plain h.machine rfl rfl rfl
      · exact h
    simp only
    generalize (if c.inProgram pc then { c with lastProgramPc := pc } else c) = c₁ at hpc ⊢
    split
    · exact hpc.touched.haltWith _
    split
    · exact hpc.touched.haltWith _
    · next instr _ =>
        have hexec := hpc.executeInstruction p instr
        split
        · exact hexec.touched.haltWith _
        · exact hexec.touched.haltWith _
        · exact (hexec.finishInstruction p pc _ _).touched

theorem countedStep (h : Tracks mode older capacity True True c) (pc : Word) :
    Tracks mode older capacity False False (c.countedStep p pc).1 := by
  have hcounted : Tracks mode older capacity True True
      { c with stepsTotal := c.stepsTotal + 1, stepsTaken := c.stepsTaken + 1 } :=
    h.plain h.machine rfl rfl rfl
  unfold Cpu.countedStep
  simp only
  split
  · exact hcounted.stubStep p pc _
  · exact hcounted.instructionStep p pc

theorem watchFrameRecords (h : Tracks mode older capacity False False c) (pc lr : Word) :
    Tracks mode older capacity False False (c.watchFrameRecords p pc lr) := by
  unfold Cpu.watchFrameRecords
  simp only
  split
  · exact h
  · exact h.onFrames fun s frame _ hrec _ => hrec.watchWrites _ _ _ _

end Tracks

end Playground
