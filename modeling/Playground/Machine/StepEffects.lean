/-
What a step can do to the counters of the cpu: its one step, its bulk charge, the
refund of a sleep and the bytes it printed.
-/
import Playground.Machine.StepBack

namespace Playground

theorem min_le_saturatingAdd (a b : Nat) : min a (2 ^ 64 - 1) ≤ saturatingAdd a b := by
  unfold saturatingAdd
  omega

namespace Cpu

/-- The small states the frames of the ring copied, oldest first. -/
def copies (c : Cpu) : List Copied := c.snapshots.frames.map StepFrame.toCopied

variable {c : Cpu}

/-- What is written into the newest frame during a step is never its copy. -/
theorem copies_updateNewest (ring : SnapshotRing) {f : StepFrame → StepFrame}
    (h : ∀ frame, (f frame).toCopied = frame.toCopied) :
    (ring.updateNewest f).frames.map StepFrame.toCopied = ring.frames.map StepFrame.toCopied := by
  unfold SnapshotRing.updateNewest
  split
  · next frame hlast =>
      have hsplit := List.dropLast_append_getLast? frame hlast
      rw [List.map_append, List.map_singleton, h frame, ← List.map_singleton, ← List.map_append,
        hsplit]
  · rfl

/-- Only the machine, the call stack, the undo logs and the notes differ. -/
structure SameSide (c c' : Cpu) : Prop where
  side : c' = { c with
    machine := c'.machine, frames := c'.frames, snapshots := c'.snapshots
    clobberNotes := c'.clobberNotes, clobberNoted := c'.clobberNoted }
  copies : c'.copies = c.copies

namespace SameSide

variable {c c' c'' : Cpu}

theorem refl (c : Cpu) : SameSide c c := ⟨rfl, rfl⟩

theorem trans (first : SameSide c c') (second : SameSide c' c'') : SameSide c c'' := by
  refine ⟨?_, second.copies.trans first.copies⟩
  rw [second.side, first.side]

theorem setRegs (c : Cpu) (regs : RegisterFile) : SameSide c (c.setRegs regs) := ⟨rfl, rfl⟩

theorem readGpr (c : Cpu) (index : Nat) : SameSide c (c.readGpr index).1 := ⟨rfl, rfl⟩

theorem onFrames (c : Cpu)
    (op : CallStack → Option FrameUndo → CallStack × Option FrameUndo) :
    SameSide c (c.onFrames op) :=
  ⟨rfl, copies_updateNewest c.snapshots fun _ => rfl⟩

theorem closeStepFrame (c : Cpu) : SameSide c c.closeStepFrame := by
  unfold Cpu.closeStepFrame
  split
  · exact refl c
  · exact ⟨rfl, copies_updateNewest c.snapshots fun _ => rfl⟩

variable (p : Platform)

theorem dropPassiveReads (c : Cpu) (pc : Word) (read : BitVec 64) :
    SameSide c (c.dropPassiveReads p pc read).1 := by
  unfold Cpu.dropPassiveReads
  split
  · exact refl c
  split
  · exact refl c
  split
  · exact refl c
  · split
    · exact setRegs c _
    · exact refl c
  · exact refl c

theorem noteRead (c : Cpu) (readBy : BitVec 32) (readPc : Word) (read : BitVec 64)
    (code : Nat) : SameSide c (Cpu.noteRead readBy readPc read c code) := by
  unfold Cpu.noteRead
  split
  · simp only
    split <;> exact ⟨rfl, rfl⟩
  · exact refl c

theorem noteClobberedReads (c : Cpu) (pc lr : Word) :
    SameSide c (c.noteClobberedReads p pc lr) := by
  have htaken : SameSide c (c.setRegs c.regs.takeClobberedReads.1) := setRegs c _
  have hfold : ∀ (codes : List Nat) (readBy : BitVec 32) (readPc : Word) (read : BitVec 64)
      (d : Cpu), SameSide c d → SameSide c (codes.foldl (Cpu.noteRead readBy readPc read) d) := by
    intro codes readBy readPc read
    induction codes with
    | nil => exact fun d hd => hd
    | cons code codes ih => exact fun d hd => ih _ (hd.trans (noteRead d readBy readPc read code))
  unfold Cpu.noteClobberedReads
  simp only
  split
  · exact htaken
  · apply hfold
    split
    · exact htaken.trans (dropPassiveReads p _ pc _)
    · exact htaken

theorem clobberAfterCall (c : Cpu) (stubPc : Word) : SameSide c (c.clobberAfterCall p stubPc) :=
  (readGpr c 30).trans ((noteClobberedReads p _ stubPc _).trans (setRegs _ _))

theorem returnToLr (c : Cpu) : SameSide c c.returnToLr :=
  (readGpr c 30).trans (setRegs _ _)

theorem trackCallOrReturn (c : Cpu) (pc : Word) (kind : CallKind) :
    SameSide c (c.trackCallOrReturn pc kind) := by
  unfold Cpu.trackCallOrReturn
  cases kind with
  | call => exact onFrames c _
  | ret =>
      simp only
      split
      · exact (onFrames c _).trans (setRegs _ _)
      · exact onFrames c _
  | lrStore => exact onFrames c _
  | other => exact refl c

theorem libcReadFault (c : Cpu) (pc address : Word) :
    SameSide c (c.libcReadFault p pc address).1 := by
  unfold Cpu.libcReadFault
  split
  · exact refl c
  · simp only
    split <;> exact readGpr c 0

theorem watchFrameRecords (c : Cpu) (pc lr : Word) :
    SameSide c (c.watchFrameRecords p pc lr) := by
  unfold Cpu.watchFrameRecords
  simp only
  split
  · exact refl c
  · exact onFrames c _

/-- Everything `step` does after the instruction or the stub. -/
theorem stepTail (c : Cpu) (pc lr : Word) :
    SameSide c ((c.watchFrameRecords p pc lr).noteClobberedReads p pc lr).closeStepFrame :=
  (watchFrameRecords p c pc lr).trans
    ((noteClobberedReads p _ pc lr).trans (closeStepFrame _))

theorem prepared (c : Cpu) : SameSide c c.prepared := ⟨rfl, rfl⟩

end SameSide

/-- What a step never changes once its frame is open. -/
structure Setup where
  copies : List Copied
  stdinClosed : Bool
  snapshotsPaused : Bool
  maxTotalSteps : Nat
  textEnd : Option Word
  trampolineBase : Word
  trampolineNames : List String

/-- The counters of the walls. -/
structure Counters where
  stepsTotal : Nat
  stepsTaken : Nat
  refundStepsTotal : Nat
  refundOutputTotal : Nat
  outputTotal : Nat

def setup (c : Cpu) : Setup :=
  ⟨c.copies, c.stdinClosed, c.snapshotsPaused, c.maxTotalSteps, c.textEnd, c.trampolineBase,
    c.trampolineNames⟩

def counters (c : Cpu) : Counters :=
  ⟨c.stepsTotal, c.stepsTaken, c.refundStepsTotal, c.refundOutputTotal, c.outputTotal⟩

/-- The counters of the walls stand as they were. -/
structure SameCounters (c c' : Cpu) : Prop where
  setup : c'.setup = c.setup
  counters : c'.counters = c.counters

/-- Besides, nothing was printed. -/
structure Silent (c c' : Cpu) : Prop extends SameCounters c c' where
  stdout : c'.stdout = c.stdout
  stderr : c'.stderr = c.stderr

theorem silent_of_sameSide {c' : Cpu} (h : SameSide c c') : Silent c c' := by
  have hcopies := h.copies
  rw [h.side] at hcopies ⊢
  refine ⟨⟨?_, rfl⟩, rfl, rfl⟩
  unfold setup
  rw [hcopies]

theorem Silent.trans {c' c'' : Cpu} (first : Silent c c') (second : Silent c' c'') :
    Silent c c'' :=
  ⟨⟨second.setup.trans first.setup, second.counters.trans first.counters⟩,
    second.stdout.trans first.stdout, second.stderr.trans first.stderr⟩

namespace SameCounters

theorem trans {c c' c'' : Cpu} (first : SameCounters c c') (second : SameCounters c' c'') :
    SameCounters c c'' :=
  ⟨second.setup.trans first.setup, second.counters.trans first.counters⟩

variable {c c' : Cpu} (h : SameCounters c c')
include h

theorem stepsTotal : c'.stepsTotal = c.stepsTotal := congrArg Counters.stepsTotal h.counters

theorem stepsTaken : c'.stepsTaken = c.stepsTaken := congrArg Counters.stepsTaken h.counters

theorem refundStepsTotal : c'.refundStepsTotal = c.refundStepsTotal :=
  congrArg Counters.refundStepsTotal h.counters

theorem refundOutputTotal : c'.refundOutputTotal = c.refundOutputTotal :=
  congrArg Counters.refundOutputTotal h.counters

theorem outputTotal : c'.outputTotal = c.outputTotal := congrArg Counters.outputTotal h.counters

end SameCounters

/-- A sleep, or none: the `r` steps and `b` bytes it took off the counters. -/
structure Refunds (r b : Nat) (c c' : Cpu) : Prop where
  setup : c'.setup = c.setup
  stepsTaken : c'.stepsTaken = c.stepsTaken
  steps : c'.stepsTotal = c.stepsTotal - r
  stepsRefunded : c'.refundStepsTotal = c.refundStepsTotal + r
  stepsCap : r ≤ maxRefundSteps - c.refundStepsTotal
  output : c'.outputTotal = c.outputTotal - b
  outputRefunded : c'.refundOutputTotal = c.refundOutputTotal + b
  outputCap : b ≤ maxRefundOutputBytes - c.refundOutputTotal

namespace Refunds

variable {r b : Nat} {c c' c'' : Cpu}

theorem of_same (h : SameCounters c c') : Refunds 0 0 c c' :=
  ⟨h.setup, h.stepsTaken, h.stepsTotal, h.refundStepsTotal, Nat.zero_le _, h.outputTotal,
    h.refundOutputTotal, Nat.zero_le _⟩

theorem after (first : SameCounters c c') (h : Refunds r b c' c'') : Refunds r b c c'' := by
  refine ⟨h.setup.trans first.setup, h.stepsTaken.trans first.stepsTaken, ?_, ?_, ?_, ?_, ?_, ?_⟩
  · rw [h.steps, first.stepsTotal]
  · rw [h.stepsRefunded, first.refundStepsTotal]
  · rw [← first.refundStepsTotal]
    exact h.stepsCap
  · rw [h.output, first.outputTotal]
  · rw [h.outputRefunded, first.refundOutputTotal]
  · rw [← first.refundOutputTotal]
    exact h.outputCap

theorem before (h : Refunds r b c c') (second : SameCounters c' c'') : Refunds r b c c'' := by
  refine ⟨second.setup.trans h.setup, second.stepsTaken.trans h.stepsTaken,
    second.stepsTotal.trans h.steps, second.refundStepsTotal.trans h.stepsRefunded, h.stepsCap,
    second.outputTotal.trans h.output, second.refundOutputTotal.trans h.outputRefunded,
    h.outputCap⟩

end Refunds

theorem refunds_applySleep (c : Cpu) (ns : Nat) : ∃ r b, Refunds r b c (c.applySleep ns) := by
  refine ⟨_, _, rfl, rfl, rfl, rfl, Nat.min_le_right _ _, rfl, rfl, ?_⟩
  split
  · exact Nat.min_le_right _ _
  · exact Nat.zero_le _

/-- What an instruction or a stub spends past its own step: a sleep took `r` steps and
`b` bytes back, bulk work charged, and every byte it printed counted. -/
structure Spends (r b : Nat) (c c' : Cpu) : Prop where
  setup : c'.setup = c.setup
  stepsTaken : c'.stepsTaken = c.stepsTaken
  steps : min (c.stepsTotal - r) (2 ^ 64 - 1) ≤ c'.stepsTotal
  stepsRefunded : c'.refundStepsTotal = c.refundStepsTotal + r
  stepsCap : r ≤ maxRefundSteps - c.refundStepsTotal
  output : c'.outputTotal = c.outputTotal - b +
    ((c'.stdout.length - c.stdout.length) + (c'.stderr.length - c.stderr.length))
  outputRefunded : c'.refundOutputTotal = c.refundOutputTotal + b
  outputCap : b ≤ maxRefundOutputBytes - c.refundOutputTotal

namespace Spends

variable {r b : Nat} {c c' c'' : Cpu}

theorem of_silent (h : Silent c c') : Spends 0 0 c c' := by
  refine ⟨h.setup, h.stepsTaken, ?_, h.refundStepsTotal, Nat.zero_le _, ?_,
    h.refundOutputTotal, Nat.zero_le _⟩
  · rw [h.stepsTotal]
    exact Nat.min_le_left _ _
  · simp [h.outputTotal, h.stdout, h.stderr]

theorem after (first : Silent c c') (h : Spends r b c' c'') : Spends r b c c'' := by
  refine ⟨h.setup.trans first.setup, h.stepsTaken.trans first.stepsTaken, ?_, ?_, ?_, ?_, ?_, ?_⟩
  · rw [← first.stepsTotal]
    exact h.steps
  · rw [h.stepsRefunded, first.refundStepsTotal]
  · rw [← first.refundStepsTotal]
    exact h.stepsCap
  · rw [h.output, first.outputTotal, first.stdout, first.stderr]
  · rw [h.outputRefunded, first.refundOutputTotal]
  · rw [← first.refundOutputTotal]
    exact h.outputCap

theorem before (h : Spends r b c c') (second : Silent c' c'') : Spends r b c c'' := by
  refine ⟨second.setup.trans h.setup, second.stepsTaken.trans h.stepsTaken, ?_,
    second.refundStepsTotal.trans h.stepsRefunded, h.stepsCap, ?_,
    second.refundOutputTotal.trans h.outputRefunded, h.outputCap⟩
  · rw [second.stepsTotal]
    exact h.steps
  · rw [second.outputTotal, second.stdout, second.stderr]
    exact h.output

/-- The charges that follow a call: its bulk work, and what it printed with the echo. -/
theorem of_refunds (h : Refunds r b c c') (queued moved : Nat) :
    Spends r b c (((c'.echoConsumedStdin queued).chargeBulkWork moved).chargeOutput
      c.stdout.length c.stderr.length).1 := by
  refine ⟨h.setup, h.stepsTaken, ?_, h.stepsRefunded,
    h.stepsCap, ?_, h.outputRefunded, h.outputCap⟩
  · rw [← h.steps]
    exact min_le_saturatingAdd _ _
  · rw [← h.output]
    rfl

end Spends

variable (p : Platform)

theorem silent_haltWith (c : Cpu) (message : String) : Silent c (c.haltWith message).1 :=
  ⟨⟨rfl, rfl⟩, rfl, rfl⟩

theorem sameCounters_runHost (c : Cpu) (fn : HostFn) (cards : Bool) :
    SameCounters c (c.runHost fn cards).1 :=
  ⟨rfl, rfl⟩

theorem sameCounters_keepCard (c : Cpu) (kind : Nat) (outcome : Except EmuError HostOutcome) :
    SameCounters c (c.keepCard kind outcome) := by
  have hkeep : ∀ failed, SameCounters c (c.keepCall kind failed) := by
    intro failed
    unfold keepCall
    simp only
    split
    · refine ⟨?_, rfl⟩
      unfold setup copies
      rw [copies_updateNewest]
      exact fun _ => rfl
    · exact ⟨rfl, rfl⟩
  have hsame := (silent_of_sameSide (SameSide.refl c)).toSameCounters
  unfold keepCard
  split
  · exact hsame
  · split
    · exact hkeep false
    · exact hsame
  · split
    · exact hkeep true
    · exact hsame

theorem refunds_applyStubOutcome (c : Cpu) (pc : Word) (outcome : HostOutcome) :
    ∃ r b, Refunds r b c (c.applyStubOutcome p pc outcome) := by
  cases outcome with
  | «continue» =>
      have hback := (SameSide.clobberAfterCall p c pc).trans (SameSide.returnToLr _)
      exact ⟨0, 0, .of_same (silent_of_sameSide hback).toSameCounters⟩
  | needInput => exact ⟨0, 0, .of_same ⟨rfl, rfl⟩⟩
  | sleep ns =>
      obtain ⟨r, b, hslept⟩ := refunds_applySleep c ns
      have hback := (SameSide.clobberAfterCall p (c.applySleep ns) pc).trans (SameSide.returnToLr _)
      exact ⟨r, b, hslept.before (silent_of_sameSide hback).toSameCounters⟩
  | exited code => exact ⟨0, 0, .of_same ⟨rfl, rfl⟩⟩
  | call target =>
      refine ⟨0, 0, .of_same (silent_of_sameSide ?_).toSameCounters⟩
      simp only [applyStubOutcome]
      split
      · exact (SameSide.setRegs c _).trans (SameSide.onFrames _ _)
      · exact SameSide.setRegs c _

theorem refunds_dispatchHostStub (c : Cpu) (pc : Word) (fn : HostFn) :
    ∃ r b, Refunds r b c (c.dispatchHostStub p pc fn).1 := by
  have hready : SameCounters c (c.enterStub pc) :=
    ⟨rfl, rfl⟩
  have hran := sameCounters_runHost (c.enterStub pc) fn (decide (cardKind p pc ≠ 0))
  have hcard := sameCounters_keepCard
    ((c.enterStub pc).runHost fn (decide (cardKind p pc ≠ 0))).1 (cardKind p pc)
    ((c.enterStub pc).runHost fn (decide (cardKind p pc ≠ 0))).2
  unfold dispatchHostStub
  simp only
  split
  · exact ⟨0, 0, .of_same ((hready.trans hran).trans hcard)⟩
  · obtain ⟨r, b, hdone⟩ := refunds_applyStubOutcome p _ pc _
    exact ⟨r, b, (hdone.after hcard).after (hready.trans hran)⟩

theorem spends_stubStep (c : Cpu) (pc : Word) (fn : HostFn) :
    ∃ r b, Spends r b c (c.stubStep p pc fn).1 := by
  unfold stubStep
  simp only
  split
  · exact ⟨0, 0, .of_silent (silent_haltWith c _)⟩
  · obtain ⟨r, b, hrefunds⟩ := refunds_dispatchHostStub p c pc fn
    have hspent := Spends.of_refunds hrefunds c.stdin.length c.mem.bytesWritten
    refine ⟨r, b, ?_⟩
    split
    · exact hspent.before (silent_haltWith _ _)
    · split
      · exact hspent
      · exact hspent.before (silent_haltWith _ _)
      · exact (hspent.before (silent_of_sameSide (SameSide.libcReadFault p _ pc _))).before
          (silent_haltWith _ _)
      · exact hspent.before (silent_haltWith _ _)

theorem refunds_dispatchSyscall (c : Cpu) (number : Nat) :
    ∃ r b, Refunds r b c (c.dispatchSyscall p number).1 := by
  have hran := Refunds.of_same (sameCounters_runHost c (p.syscall number) false)
  have hflag : ∀ d : Cpu, Refunds 0 0 c d → ∀ d', SameCounters d d' → ∃ r b, Refunds r b c d' :=
    fun d hd d' hsame => ⟨0, 0, hd.before hsame⟩
  unfold dispatchSyscall
  simp only
  split
  · exact ⟨0, 0, hran⟩
  · exact ⟨0, 0, hran⟩
  · exact ⟨0, 0, hran⟩
  · exact hflag _ hran _ ⟨rfl, rfl⟩
  · next ns _ =>
      obtain ⟨r, b, hslept⟩ := refunds_applySleep (c.runHost (p.syscall number) false).1 ns
      exact ⟨r, b, hslept.after (sameCounters_runHost c (p.syscall number) false)⟩
  · exact hflag _ hran _ ⟨rfl, rfl⟩

theorem spends_syscallStep (c : Cpu) (pc : Word) (number : Nat) :
    ∃ r b, Spends r b c (c.syscallStep p pc number).1 := by
  obtain ⟨r, b, hrefunds⟩ := refunds_dispatchSyscall p c number
  have hspent := Spends.of_refunds hrefunds c.stdin.length c.mem.bytesWritten
  refine ⟨r, b, ?_⟩
  unfold syscallStep
  simp only
  split
  · exact hspent.before (silent_haltWith _ _)
  · split
    · exact hspent.before (silent_haltWith _ _)
    · exact hspent.before (silent_haltWith _ _)
    · split
      · exact hspent
      · exact hspent.before (silent_of_sameSide (SameSide.setRegs _ _))

theorem spends_trapStep (c : Cpu) (pc : Word) (result : ExecResult) :
    ∃ r b, Spends r b c (c.trapStep p pc result).1 := by
  unfold trapStep
  split
  · have hread := silent_of_sameSide (SameSide.readGpr c 8)
    simp only
    split
    · exact ⟨0, 0, .of_silent ⟨⟨rfl, rfl⟩, rfl, rfl⟩⟩
    · obtain ⟨r, b, hspent⟩ := spends_syscallStep p (c.readGpr 8).1 pc (c.readGpr 8).2.toNat
      exact ⟨r, b, hspent.after hread⟩
  · exact ⟨0, 0, .of_silent (silent_of_sameSide (SameSide.refl c))⟩

theorem silent_classifyOutcome (c : Cpu) : Silent c c.classifyOutcome.1 := by
  have hsame := silent_of_sameSide (SameSide.refl c)
  unfold classifyOutcome
  split
  · exact hsame
  · split
    · exact ⟨⟨rfl, rfl⟩, rfl, rfl⟩
    · split
      · exact hsame
      · split <;> exact hsame

theorem spends_finishInstruction (c : Cpu) (pc : Word) (kind : CallKind) (result : ExecResult) :
    ∃ r b, Spends r b c (c.finishInstruction p pc kind result).1 := by
  have hadvanced : SameSide c
      (if result = .advance then c.setRegs (c.regs.writePc (pc + 4)) else c) := by
    split
    · exact SameSide.setRegs c _
    · exact SameSide.refl c
  have htracked := silent_of_sameSide
    (hadvanced.trans (SameSide.trackCallOrReturn _ pc kind))
  unfold finishInstruction
  simp only
  generalize trackCallOrReturn (if result = .advance then
    c.setRegs (c.regs.writePc (pc + 4)) else c) pc kind = c₁ at htracked ⊢
  have hhalted : Silent c (if result = .halted then { c₁ with halted := true } else c₁) := by
    split
    · exact htracked.trans ⟨⟨rfl, rfl⟩, rfl, rfl⟩
    · exact htracked
  obtain ⟨r, b, htrapped⟩ := spends_trapStep p
    (if result = .halted then { c₁ with halted := true } else c₁) pc result
  have hspent := htrapped.after hhalted
  refine ⟨r, b, ?_⟩
  split
  · next c₂ result' hvalue =>
      rw [hvalue] at hspent
      exact hspent
  · next c₂ hvalue =>
      rw [hvalue] at hspent
      exact hspent.before (silent_classifyOutcome c₂)

theorem spends_instructionStep (c : Cpu) (pc : Word) :
    ∃ r b, Spends r b c (c.instructionStep p pc).1 := by
  unfold instructionStep
  split
  · exact ⟨0, 0, .of_silent ⟨⟨rfl, rfl⟩, rfl, rfl⟩⟩
  · have hpc : Silent c (if c.inProgram pc then { c with lastProgramPc := pc } else c) := by
      split
      · exact ⟨⟨rfl, rfl⟩, rfl, rfl⟩
      · exact silent_of_sameSide (SameSide.refl c)
    simp only
    generalize (if c.inProgram pc then { c with lastProgramPc := pc } else c) = c₁ at hpc ⊢
    have hhalt : ∀ e : EmuError, ∃ r b, Spends r b c (c₁.runtimeErrorHalt e).1 :=
      fun e => ⟨0, 0, (Spends.of_silent (silent_haltWith c₁ _)).after hpc⟩
    split
    · exact hhalt _
    split
    · exact hhalt _
    · next instr _ =>
        have hexec : SameSide c₁ (c₁.executeInstruction p instr).1 := ⟨rfl, rfl⟩
        have hran := (Spends.of_silent (silent_of_sameSide hexec)).after hpc
        split
        · exact ⟨0, 0, hran.before (silent_haltWith _ _)⟩
        · exact ⟨0, 0, hran.before (silent_haltWith _ _)⟩
        · obtain ⟨r, b, hdone⟩ := spends_finishInstruction p (c₁.executeInstruction p instr).1 pc
            (p.callKind instr) _
          exact ⟨r, b, (hdone.after (silent_of_sameSide hexec)).after hpc⟩

/-- A call to `step` that executes: the cpu runs and no wall refuses it. -/
structure Executes (c : Cpu) : Prop where
  running : c.halted = false
  unblocked : c.blocked = false
  budget : c.stepsTotal < c.maxTotalSteps
  stack : stackFloor ≤ c.regs.sp

def counted (c : Cpu) : Cpu :=
  { c with stepsTotal := c.stepsTotal + 1, stepsTaken := c.stepsTaken + 1 }

def opened (c : Cpu) : Cpu :=
  ({ c.prepared with pendingSleepNs := none } : Cpu).captureStepSnapshot

theorem executeStep_of_executes (h : c.Executes) :
    c.prepared.executeStep p = c.opened.countedStep p c.regs.pc := by
  have hregs : c.prepared.regs = { c.regs with clobberedReads := default } := prepared_regs c
  have hrun := executeStep_running p (c := c.prepared) h.running h.unblocked h.budget
    (by rw [hregs]; exact h.stack)
  rw [hregs] at hrun
  exact hrun

theorem opened_side (c : Cpu) : c.opened = { c with
    pendingSleepNs := none, machine := c.opened.machine, snapshots := c.opened.snapshots } := by
  unfold opened captureStepSnapshot
  split <;> rfl

/-- The copies in the ring once the frame of a step is open. -/
theorem copies_captureStepSnapshot (c : Cpu) : c.captureStepSnapshot.copies =
    if c.recordsFrames then
      (if c.copies.length = c.snapshots.capacity then c.copies.drop 1 else c.copies) ++
        [c.toCopied]
    else [] := by
  unfold captureStepSnapshot
  split
  · have hcopied := openFrame_copied c (pushSlot c.snapshots)
    unfold copies
    simp only [List.map_append, List.map_singleton, hcopied, List.length_map,
      SnapshotRing.makeRoom]
    split
    · rw [List.map_drop]
    · rfl
  · rfl

theorem opened_copies (c : Cpu) : c.opened.copies = if c.recordsFrames then
    (if c.copies.length = c.snapshots.capacity then c.copies.drop 1 else c.copies) ++ [c.toCopied]
    else [] :=
  copies_captureStepSnapshot { c.prepared with pendingSleepNs := none }

theorem spends_step (h : c.Executes) :
    ∃ r b, Spends r b c.opened.counted (c.step p).1 := by
  have hran : ∃ r b, Spends r b c.opened.counted (c.prepared.executeStep p).1 := by
    rw [executeStep_of_executes p h]
    unfold countedStep
    simp only
    split
    · exact spends_stubStep p _ _ _
    · exact spends_instructionStep p _ _
  obtain ⟨r, b, hspent⟩ := hran
  rw [step_eq]
  exact ⟨r, b, hspent.before (silent_of_sameSide (SameSide.stepTail p _ _ _))⟩

/-- What an executed step did to the counters: a sleep took `r` steps and `b` bytes back. -/
structure Executed (r b : Nat) (c c' : Cpu) : Prop where
  copies : c'.copies = c.opened.copies
  maxTotalSteps : c'.maxTotalSteps = c.maxTotalSteps
  stepsTaken : c'.stepsTaken = c.stepsTaken + 1
  steps : min (c.stepsTotal + 1 - r) (2 ^ 64 - 1) ≤ c'.stepsTotal
  stepsRefunded : c'.refundStepsTotal = c.refundStepsTotal + r
  stepsCap : r ≤ maxRefundSteps - c.refundStepsTotal
  output : c'.outputTotal = c.outputTotal - b +
    ((c'.stdout.length - c.stdout.length) + (c'.stderr.length - c.stderr.length))
  outputRefunded : c'.refundOutputTotal = c.refundOutputTotal + b
  outputCap : b ≤ maxRefundOutputBytes - c.refundOutputTotal

theorem executed_step (h : c.Executes) : ∃ r b, Executed r b c (c.step p).1 := by
  obtain ⟨r, b, hspent⟩ := spends_step p h
  have hcopies := congrArg Setup.copies hspent.setup
  have hside : Spends r b (Cpu.counted { c with
      pendingSleepNs := none, machine := c.opened.machine
      snapshots := c.opened.snapshots }) (c.step p).1 := by
    rw [← opened_side]
    exact hspent
  have hmax := congrArg Setup.maxTotalSteps hside.setup
  exact ⟨r, b, hcopies, hmax, hside.stepsTaken, hside.steps, hside.stepsRefunded, hside.stepsCap,
    hside.output, hside.outputRefunded, hside.outputCap⟩

def Sleeps (c : Cpu) : Prop := ∃ ns, (c.step p).2.outcome = .sleeping ns

/-- Neither halted nor waiting for input. -/
structure Awake (c : Cpu) : Prop where
  running : c.halted = false
  unblocked : c.blocked = false

theorem Awake.sameSide {c' : Cpu} (h : c.Awake) (hsame : SameSide c c') : c'.Awake := by
  rw [hsame.side]
  exact ⟨h.running, h.unblocked⟩

theorem checkRunawayWalls_cases (c : Cpu) :
    (∃ c' halt, c.checkRunawayWalls = (c', some halt) ∧ halt.outcome = .halted) ∨
    (c.checkRunawayWalls = (c, none) ∧ c.stepsTotal < c.maxTotalSteps ∧
      stackFloor ≤ c.regs.sp) := by
  unfold checkRunawayWalls
  split
  · exact Or.inl ⟨_, _, rfl, rfl⟩
  · next hbudget =>
      split
      · exact Or.inl ⟨_, _, rfl, rfl⟩
      · next hstack => exact Or.inr ⟨rfl, Nat.lt_of_not_le hbudget, BitVec.not_lt.mp hstack⟩

theorem silent_checkRunawayWalls (c : Cpu) : Silent c c.checkRunawayWalls.1 := by
  unfold checkRunawayWalls
  split
  · exact silent_haltWith c _
  · split
    · exact silent_haltWith c _
    · exact silent_of_sameSide (SameSide.refl c)

theorem silent_step_refused (h : ¬ c.Executes) : Silent c (c.step p).1 := by
  have hexec : Silent c (c.prepared.executeStep p).1 := by
    have hprep : Silent c c.prepared := silent_of_sameSide (SameSide.prepared c)
    unfold executeStep
    split
    · exact hprep
    split
    · exact hprep
    · next hhalted hblocked =>
        rcases checkRunawayWalls_cases { c.prepared with pendingSleepNs := none } with
          ⟨c', halt, hwall, -⟩ | ⟨-, hbudget, hstack⟩
        · have hsame := silent_checkRunawayWalls { c.prepared with pendingSleepNs := none }
          have hready : Silent c { c.prepared with pendingSleepNs := none } :=
            hprep.trans ⟨⟨rfl, rfl⟩, rfl, rfl⟩
          simp only [hwall] at hsame ⊢
          exact hready.trans hsame
        · have hsp : stackFloor ≤ c.prepared.regs.sp := hstack
          rw [prepared_regs] at hsp
          exact absurd ⟨eq_false_of_ne_true hhalted, eq_false_of_ne_true hblocked, hbudget, hsp⟩ h
  rw [step_eq]
  exact hexec.trans (silent_of_sameSide (SameSide.stepTail p _ _ _))

theorem Sleeps.executes (h : c.Sleeps p) : c.Executes := by
  obtain ⟨ns, hsleep⟩ := h
  have houtcome : (c.prepared.executeStep p).2.outcome = .sleeping ns := hsleep
  unfold executeStep at houtcome
  split at houtcome
  · simp only at houtcome
    split at houtcome <;> cases houtcome
  split at houtcome
  · cases houtcome
  · next hhalted hblocked =>
      rcases checkRunawayWalls_cases { c.prepared with pendingSleepNs := none } with
        ⟨c', halt, hwall, hhalt⟩ | ⟨-, hbudget, hstack⟩
      · simp only [hwall] at houtcome
        cases hhalt.symm.trans houtcome
      · have hsp : stackFloor ≤ c.prepared.regs.sp := hstack
        rw [prepared_regs] at hsp
        exact ⟨eq_false_of_ne_true hhalted, eq_false_of_ne_true hblocked, hbudget, hsp⟩

theorem awake_dispatchHostStub (h : c.Awake) {pc : Word} {fn : HostFn}
    {result : StepResult} {ns : Nat} (hok : (c.dispatchHostStub p pc fn).2 = .ok result)
    (hsleep : result.outcome = .sleeping ns) : (c.dispatchHostStub p pc fn).1.Awake := by
  have hkept : ∀ (d : Cpu) (kind : Nat) (outcome : Except EmuError HostOutcome), d.Awake →
      (d.keepCard kind outcome).Awake := by
    intro d kind outcome hd
    have hcall : ∀ failed, (d.keepCall kind failed).Awake := by
      intro failed
      unfold keepCall
      simp only
      split <;> exact ⟨hd.running, hd.unblocked⟩
    unfold keepCard
    split
    · exact hd
    · split
      · exact hcall false
      · exact hd
    · split
      · exact hcall true
      · exact hd
  have hran : ((c.enterStub pc).runHost fn (decide (cardKind p pc ≠ 0))).1.Awake :=
    ⟨h.running, h.unblocked⟩
  unfold dispatchHostStub at hok ⊢
  simp only at hok ⊢
  generalize (c.enterStub pc).runHost fn (decide (cardKind p pc ≠ 0)) = ran at hran hok ⊢
  obtain ⟨c₁, outcome⟩ := ran
  have hcard := hkept c₁ (cardKind p pc) outcome hran
  cases outcome with
  | error e => cases hok
  | ok outcome =>
      obtain rfl := Except.ok.inj hok
      cases outcome with
      | sleep ns' =>
          have hslept : ((c₁.keepCard (cardKind p pc) (.ok (.sleep ns'))).applySleep ns').Awake :=
            ⟨hcard.running, hcard.unblocked⟩
          exact (hslept.sameSide (SameSide.clobberAfterCall p _ pc)).sameSide
            (SameSide.returnToLr _)
      | _ => cases hsleep

theorem awake_stubStep (h : c.Awake) {pc : Word} {fn : HostFn} {ns : Nat}
    (hsleep : (c.stubStep p pc fn).2.outcome = .sleeping ns) :
    (c.stubStep p pc fn).1.Awake := by
  unfold stubStep at hsleep ⊢
  simp only at hsleep ⊢
  split at hsleep
  · cases hsleep
  · next haligned =>
      rw [if_neg haligned]
      split at hsleep
      · cases hsleep
      · next hbreached =>
          rw [if_neg hbreached]
          split at hsleep
          · next result hok =>
              have hdone := awake_dispatchHostStub p h hok hsleep
              exact ⟨hdone.running, hdone.unblocked⟩
          · cases hsleep
          · cases hsleep
          · cases hsleep

theorem trapStep_halts {c' : Cpu} {pc : Word} {result : ExecResult} {halt : StepResult}
    (h : c.trapStep p pc result = (c', some halt)) : halt.outcome = .halted := by
  unfold trapStep at h
  split at h
  · simp only at h
    split at h
    · simp at h
    · unfold syscallStep at h
      simp only at h
      split at h
      · simp only [outputCapHalt, haltWith, Prod.mk.injEq, Option.some.injEq] at h
        rw [← h.2]
      · split at h
        · simp only [memoryCapHalt, haltWith, Prod.mk.injEq, Option.some.injEq] at h
          rw [← h.2]
        · simp only [runtimeErrorHalt, haltWith, Prod.mk.injEq, Option.some.injEq] at h
          rw [← h.2]
        · simp at h
  · simp at h

theorem awake_classifyOutcome {ns : Nat} (h : c.classifyOutcome.2 = .sleeping ns) :
    c.classifyOutcome.1.Awake := by
  unfold classifyOutcome at h ⊢
  split at h
  · cases h
  · next hblocked =>
      rw [if_neg hblocked]
      split at h
      · cases h
      · next hexit =>
          split at h
          · cases h
          · next hhalted =>
              rw [if_neg hhalted]
              have hawake : c.Awake :=
                ⟨eq_false_of_ne_true hhalted, eq_false_of_ne_true hblocked⟩
              split <;> exact hawake

theorem awake_instructionStep {pc : Word} {ns : Nat}
    (hsleep : (c.instructionStep p pc).2.outcome = .sleeping ns) :
    (c.instructionStep p pc).1.Awake := by
  unfold instructionStep at hsleep ⊢
  split at hsleep
  · cases hsleep
  · next hend =>
      rw [if_neg hend]
      simp only at hsleep ⊢
      generalize (if c.inProgram pc then { c with lastProgramPc := pc } else c) = c₁ at hsleep ⊢
      split at hsleep
      · cases hsleep
      · split at hsleep
        · cases hsleep
        · split at hsleep
          · cases hsleep
          · cases hsleep
          · unfold finishInstruction at hsleep ⊢
            simp only at hsleep ⊢
            split at hsleep
            · next c₂ halt hvalue => cases (trapStep_halts p hvalue).symm.trans hsleep
            · exact awake_classifyOutcome hsleep

theorem awake_countedStep (h : c.Awake) {pc : Word} {ns : Nat}
    (hsleep : (c.countedStep p pc).2.outcome = .sleeping ns) :
    (c.countedStep p pc).1.Awake := by
  have hcounted : c.counted.Awake := ⟨h.running, h.unblocked⟩
  unfold countedStep at hsleep ⊢
  simp only at hsleep ⊢
  rcases hentry : p.host.entryAt pc with _ | entry
  · simp only [hentry] at hsleep
    exact awake_instructionStep p hsleep
  · simp only [hentry] at hsleep
    exact awake_stubStep p hcounted hsleep

/-- A step that sleeps leaves the cpu ready to go on. -/
theorem Sleeps.next_awake (h : c.Sleeps p) : (c.step p).1.Awake := by
  have hexec := h.executes
  obtain ⟨ns, hsleep⟩ := h
  have houtcome : (c.prepared.executeStep p).2.outcome = .sleeping ns := hsleep
  have hopen : c.opened.Awake := by
    rw [opened_side]
    exact ⟨hexec.running, hexec.unblocked⟩
  rw [executeStep_of_executes p hexec] at houtcome
  have hdone := awake_countedStep p hopen houtcome
  rw [← executeStep_of_executes p hexec] at hdone
  rw [step_eq]
  exact hdone.sameSide (SameSide.stepTail p _ _ _)

end Cpu

end Playground
