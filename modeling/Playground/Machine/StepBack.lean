/-
`stepBack` is the inverse of `step`: a recorded step followed by a step back restores
the machine, and so do as many of each as the ring holds.
-/
import Playground.Machine.Tracking

namespace Playground

namespace Cpu

/-- What holds of the cpu between steps. -/
structure Settled (c : Cpu) : Prop where
  machine : MachineTracks none c.machine
  reads : c.regs.clobberedReads = default
  capacity : c.snapshots.capacity = snapshotCapacity
  ring : c.snapshots.frames.length ≤ snapshotCapacity

/-- A call to `step` that records a frame: the cpu runs, no wall refuses the step and
the ring is on. -/
structure Records (c : Cpu) : Prop where
  running : c.halted = false
  unblocked : c.blocked = false
  budget : c.stepsTotal < c.maxTotalSteps
  stack : stackFloor ≤ c.regs.sp
  recording : c.recordsFrames = true

/-- The cpu as `step` hands it on: no reads pending, no runs left from before. -/
def prepared (c : Cpu) : Cpu :=
  ((c.readGpr 30).1.setRegs (c.readGpr 30).1.regs.takeClobberedReads.1).setMem c.mem.startStep

variable {c : Cpu}

theorem readGpr_toRegArrays (r : RegisterFile) (index : Nat) :
    (r.readGpr index true).1 = { r with
      clobberedReads := (r.readGpr index true).1.clobberedReads } := by
  unfold RegisterFile.readGpr
  split <;> rfl

theorem prepared_regs (c : Cpu) :
    c.prepared.regs = { c.regs with clobberedReads := default } := by
  change ((c.regs.readGpr 30 true).1).takeClobberedReads.1 = _
  rw [readGpr_toRegArrays]
  rfl

theorem prepared_state (h : c.regs.clobberedReads = default) :
    c.prepared.state = c.state := by
  have hregs : c.prepared.regs.toRegisterState = c.regs.toRegisterState := by
    rw [prepared_regs, ← h]
  unfold state
  rw [hregs]
  rfl

theorem Settled.prepared (h : c.Settled) : c.prepared.Settled := by
  have hm := h.machine
  obtain ⟨hregs, hmem, hheap⟩ := hm.idle rfl
  refine ⟨⟨hm.budgeted, hm.wellFormed, fun _ => ⟨?_, hmem, hheap⟩, by simp⟩, ?_,
    h.capacity, h.ring⟩
  · change c.prepared.regs.recording = false
    rw [prepared_regs]
    exact hregs
  · rw [prepared_regs]

/-- The frame copies the small state as it stands. -/
theorem openFrame_copied (c : Cpu) (slot : StepFrame) :
    (c.openFrame slot).toCopied = c.toCopied := by
  have hskip : ∀ {α : Type} (x y : List α),
      (if x.isEmpty && y.isEmpty then x else y) = y := by
    intro α x y
    cases x <;> cases y <;> rfl
  have hcallbacks : (if slot.callbacks.isIdle && c.callbacks.isIdle then
      { slot.callbacks with stubPc := c.callbacks.stubPc } else c.callbacks) = c.callbacks := by
    split
    · next hidle =>
        simp only [CallbackState.isIdle, Bool.and_eq_true, List.isEmpty_iff] at hidle
        cases hc : c.callbacks with
        | mk stubPc jobs =>
            have hjobs : jobs = [] := by simpa [hc] using hidle.2
            simp [hidle.1, hjobs]
    · rfl
  unfold openFrame
  simp only [hskip, hcallbacks]

theorem length_makeRoom {ring : SnapshotRing} (hcap : ring.capacity = snapshotCapacity)
    (hlen : ring.frames.length ≤ snapshotCapacity) :
    ring.makeRoom.length + 1 ≤ snapshotCapacity := by
  unfold SnapshotRing.makeRoom
  have hpos : 0 < snapshotCapacity := by decide
  split
  · rw [List.length_drop]
    omega
  · omega

/-- Opening a frame: from here on everything is logged. -/
theorem Settled.capture (h : c.Settled) (hrec : c.recordsFrames = true) :
    Tracks (some c.state) c.snapshots.makeRoom snapshotCapacity True True
      c.captureStepSnapshot := by
  unfold captureStepSnapshot
  rw [if_pos hrec]
  refine ⟨⟨h.machine.budgeted, h.machine.wellFormed, by simp, fun s hs => ?_⟩,
    ⟨by simp, fun s hs => ?_⟩, h.capacity⟩
  · obtain rfl := Option.some.inj hs
    exact ⟨RegisterFile.recorded_recordUndo _ (pushSlot c.snapshots).regs,
      Memory.recorded_recordUndo _ (pushSlot c.snapshots).mem, rfl,
      HeapState.recorded_recordUndo _ (pushSlot c.snapshots).heap⟩
  · obtain rfl := Option.some.inj hs
    exact ⟨_, rfl, openFrame_copied c _, CallStack.recorded_recordUndo _, rfl,
      fun _ => ⟨rfl, rfl⟩, fun _ => rfl⟩

/-- A step that is not recorded ends the history. -/
theorem Settled.captureUnrecorded (h : c.Settled) (hrec : c.recordsFrames = false) :
    Tracks none [] snapshotCapacity True True c.captureStepSnapshot := by
  unfold captureStepSnapshot
  rw [hrec]
  exact ⟨h.machine, ⟨fun _ => rfl, by simp⟩, h.capacity⟩

/-- `frame` leads from `s` back to `s₀`, in whatever cpu holds `s`. -/
def LeadsBack (frame : StepFrame) (s s₀ : CpuState) : Prop :=
  ∀ d : Cpu, d.state = s → (d.undoFrame frame).state = s₀

/-- The parts a frame keeps as logs are the same: the registers, memory, the heap, the
call stack and the call card. -/
structure SameBody (s t : CpuState) : Prop where
  regs : s.regs = t.regs
  pages : s.pages = t.pages
  zeroFill : s.zeroFill = t.zeroFill
  heap : s.heap = t.heap
  frames : s.frames = t.frames
  lastCall : s.lastCall = t.lastCall

theorem SameBody.refl (s : CpuState) : SameBody s s := ⟨rfl, rfl, rfl, rfl, rfl, rfl⟩

/-- `frame` brings `s₀` back, in whatever cpu holds the body of `s`, and starts no log. -/
def Restores (frame : StepFrame) (s s₀ : CpuState) : Prop :=
  ∀ d : Cpu, SameBody d.state s →
    (d.undoFrame frame).state = s₀ ∧ (d.undoFrame frame).mem.recording = d.mem.recording

theorem Restores.leadsBack {frame : StepFrame} {s s₀ : CpuState} (h : Restores frame s s₀) :
    LeadsBack frame s s₀ := by
  intro d hd
  refine (h d ?_).1
  rw [hd]
  exact SameBody.refl s

theorem closeStepFrame_recorded {s : CpuState} {older : List StepFrame} {capacity : Nat}
    (h : Tracks (some s) older capacity False False c) :
    MachineTracks none c.closeStepFrame.machine ∧
    c.closeStepFrame.snapshots.capacity = capacity ∧
    c.closeStepFrame.regs.clobberedReads = c.regs.clobberedReads ∧
    ∃ frame, c.closeStepFrame.snapshots.frames = older ++ [frame] ∧
      Restores frame c.closeStepFrame.state s := by
  obtain ⟨hregs, hmem, hzero, hheap⟩ := h.machine.recorded s rfl
  obtain ⟨frame, hring, hcopied, hstack, hcall, -, -⟩ := h.ring.recorded s rfl
  have hclosed : c.closeStepFrame = { c with
      machine := ⟨{ c.regs with undo := frame.regs, recording := false },
        { c.mem with undo := frame.mem, recording := false },
        { c.machine.heap with undo := frame.heap, recording := false }⟩
      snapshots := { c.snapshots with frames := older ++ [{ frame with
        regs := c.regs.undo, mem := c.mem.undo, heap := c.machine.heap.undo }] } } := by
    have hr : c.regs.recording = true := hregs.recording
    have hm : c.mem.recording = true := hmem.recording
    have hh : c.machine.heap.recording = true := hheap.recording
    simp [closeStepFrame, SnapshotRing.newest, SnapshotRing.updateNewest, hring,
      RegisterFile.finishUndo, Memory.finishUndo, HeapState.finishUndo, hr, hm, hh]
  rw [hclosed]
  refine ⟨⟨h.machine.budgeted, h.machine.wellFormed, fun _ => ⟨rfl, rfl, rfl⟩, by simp⟩,
    h.capacity, rfl, _, rfl, ?_⟩
  intro d hd
  have hdregs : d.regs.toRegisterState = c.regs.toRegisterState := hd.regs
  have hdpages : d.mem.pages = c.mem.pages := hd.pages
  have hdzero : d.mem.zeroFill = c.mem.zeroFill := hd.zeroFill
  have hdheap : d.machine.heap.toHeapTables = c.machine.heap.toHeapTables := hd.heap
  have hdframes : d.frames = c.frames := hd.frames
  have hdcall : d.lastCall = c.lastCall := hd.lastCall
  have hregs' := RegisterFile.undoStep_of_recorded hregs hdregs
  obtain ⟨hpages', hrec', hzero'⟩ := Memory.undoStep_of_recorded hmem hdpages
  have hheap' := HeapState.undoStep_of_recorded hheap hdheap
  have hframes' : d.frames.undoStep frame.frames = s.frames := by
    rw [hdframes]
    exact CallStack.undoStep_of_recorded hstack
  have hcall' : frame.call.getD d.lastCall = s.lastCall := by
    rw [hdcall]
    exact hcall
  have hzero'' : (d.mem.undoStep c.machine.mem.undo).zeroFill = s.zeroFill := by
    rw [hzero', hdzero]
    exact hzero
  have hshape : ∀ t : CpuState, t.toCopied = frame.toCopied →
      t.regs = s.regs → t.pages = s.pages → t.zeroFill = s.zeroFill → t.heap = s.heap →
      t.frames = s.frames → t.lastCall = s.lastCall → t = s := by
    rintro ⟨tc, tr, tp, tz, th, tf, tl⟩ hc hr hp hz hh hf hl
    cases s
    simp only at hc hr hp hz hh hf hl hcopied
    simp only [hc, hr, hp, hz, hh, hf, hl, hcopied]
  exact ⟨hshape _ rfl hregs' hpages' hzero'' hheap' hframes' hcall', hrec'⟩

theorem closeStepFrame_unrecorded {older : List StepFrame} {capacity : Nat}
    (h : Tracks none older capacity False False c) : c.closeStepFrame = c := by
  simp [closeStepFrame, SnapshotRing.newest, h.ring.idle rfl]

theorem noteClobberedReads_reads (p : Platform) (c : Cpu) (pc lr : Word) :
    (c.noteClobberedReads p pc lr).regs.clobberedReads = default := by
  have hfold : ∀ (codes : List Nat) (readBy : BitVec 32) (readPc : Word) (read : BitVec 64)
      (c : Cpu), (codes.foldl (noteRead readBy readPc read) c).regs = c.regs := by
    intro codes readBy readPc read
    induction codes with
    | nil => exact fun c => rfl
    | cons code codes ih =>
        intro c
        rw [List.foldl_cons, ih]
        unfold noteRead
        split
        · simp only
          split <;> rfl
        · rfl
  have hcarry : ∀ (r : RegisterFile) (source dest : Nat) (pc : BitVec 32),
      (r.carryClobber source dest pc).clobberedReads = r.clobberedReads := by
    intro r source dest pc
    have horigin : ∀ o, (r.setOrigin dest o).clobberedReads = r.clobberedReads := by
      intro o
      unfold RegisterFile.setOrigin RegisterFile.log
      simp only
      split <;> rfl
    unfold RegisterFile.carryClobber
    simp only
    split <;> simp only [horigin]
  have hdrop : ∀ (c : Cpu) (read : BitVec 64),
      (c.dropPassiveReads p pc read).1.regs.clobberedReads = c.regs.clobberedReads := by
    intro c read
    unfold dropPassiveReads
    split
    · rfl
    split
    · rfl
    split
    · rfl
    · split
      · exact hcarry _ _ _ _
      · rfl
    · rfl
  unfold noteClobberedReads
  simp only
  split
  · rfl
  · rw [hfold]
    split
    · rw [hdrop]
      rfl
    · rfl

/-- A step that is refused before it opens a frame changes no logged state. -/
theorem executeStep_refused (p : Platform)
    (h : ¬ (c.halted = false ∧ c.blocked = false ∧ c.stepsTotal < c.maxTotalSteps ∧
      stackFloor ≤ c.regs.sp)) :
    (c.executeStep p).1.machine = c.machine ∧ (c.executeStep p).1.snapshots = c.snapshots ∧
      (c.executeStep p).1.frames = c.frames ∧ (c.executeStep p).1.lastCall = c.lastCall := by
  unfold executeStep
  split
  · exact ⟨rfl, rfl, rfl, rfl⟩
  split
  · exact ⟨rfl, rfl, rfl, rfl⟩
  · next hhalted hblocked =>
      simp only [checkRunawayWalls]
      split
      · next halt hwall =>
          split at hwall
          · simp only [Prod.mk.injEq] at hwall
            obtain ⟨rfl, -⟩ := hwall
            exact ⟨rfl, rfl, rfl, rfl⟩
          · split at hwall
            · simp only [Prod.mk.injEq] at hwall
              obtain ⟨rfl, -⟩ := hwall
              exact ⟨rfl, rfl, rfl, rfl⟩
            · simp at hwall
      · next hwall =>
          split at hwall
          · simp at hwall
          · split at hwall
            · simp at hwall
            · next hbudget hstack =>
                refine absurd ⟨by simpa using hhalted, by simpa using hblocked, ?_, ?_⟩ h
                · simpa using hbudget
                · exact BitVec.not_lt.mp hstack

/-- A step past the walls opens a frame and runs. -/
theorem executeStep_running (p : Platform) (hhalted : c.halted = false)
    (hblocked : c.blocked = false) (hbudget : c.stepsTotal < c.maxTotalSteps)
    (hstack : stackFloor ≤ c.regs.sp) :
    c.executeStep p = ({ c with pendingSleepNs := none }.captureStepSnapshot).countedStep p
      c.regs.pc := by
  have hwall : ¬ c.maxTotalSteps ≤ c.stepsTotal := by omega
  have hsp : ¬ c.regs.sp < stackFloor := BitVec.not_lt.mpr hstack
  have hwalls : { c with pendingSleepNs := none }.checkRunawayWalls =
      ({ c with pendingSleepNs := none }, none) := by
    have hsp' : ¬ (Cpu.regs { c with pendingSleepNs := none }).sp < stackFloor := hsp
    unfold checkRunawayWalls
    simp only [hwall, hsp', ↓reduceIte]
  unfold executeStep
  simp only [hhalted, hblocked, Bool.false_eq_true, ↓reduceIte, hwalls]
  rfl

theorem step_eq (p : Platform) (c : Cpu) :
    (c.step p).1 = (((c.prepared.executeStep p).1.watchFrameRecords p c.regs.pc
      (c.readGpr 30).2).noteClobberedReads p c.regs.pc (c.readGpr 30).2).closeStepFrame :=
  rfl

/-- One recorded step: the ring makes room and gains a frame that leads back. -/
theorem step_recorded (p : Platform) (h : c.Settled) (hrec : c.Records) :
    (c.step p).1.Settled ∧ ∃ frame,
      (c.step p).1.snapshots.frames = c.snapshots.makeRoom ++ [frame] ∧
      Restores frame (c.step p).1.state c.state := by
  have hprep := h.prepared
  have hsp : c.prepared.regs.sp = c.regs.sp := by rw [prepared_regs]
  have hrun := executeStep_running p (c := c.prepared) hrec.running hrec.unblocked hrec.budget
    (by rw [hsp]; exact hrec.stack)
  have hsettled : Settled { c.prepared with pendingSleepNs := none } :=
    ⟨hprep.machine, hprep.reads, hprep.capacity, hprep.ring⟩
  have htracks := (hsettled.capture hrec.recording).countedStep p c.prepared.regs.pc
  rw [← hrun] at htracks
  have hend := (htracks.watchFrameRecords p c.regs.pc (c.readGpr 30).2).noteClobberedReads p
    c.regs.pc (c.readGpr 30).2
  have hstate : Cpu.state { c.prepared with pendingSleepNs := none } = c.state :=
    prepared_state h.reads
  rw [hstate] at hend
  obtain ⟨hmachine, hcapacity, hreads, frame, hring, hback⟩ := closeStepFrame_recorded hend
  rw [step_eq]
  refine ⟨⟨hmachine, ?_, hcapacity, ?_⟩, frame, hring, hback⟩
  · rw [hreads]
    exact noteClobberedReads_reads p _ _ _
  · rw [hring, List.length_append]
    exact length_makeRoom h.capacity h.ring

theorem watchFrameRecords_of_no_writes (p : Platform) (h : c.mem.undo.runs = [])
    (pc lr : Word) : c.watchFrameRecords p pc lr = c := by
  simp [watchFrameRecords, Memory.stepWrites, h]

theorem noteClobberedReads_of_no_reads (p : Platform)
    (h : c.regs.clobberedReads = default) (pc lr : Word) :
    c.noteClobberedReads p pc lr = c.setRegs c.regs.takeClobberedReads.1 := by
  have hempty : c.regs.takeClobberedReads.2.isEmpty = true := by
    rw [RegisterFile.takeClobberedReads, h]
    rfl
  simp [noteClobberedReads, hempty]

/-- Closing the newest frame again, with nothing logged, leaves the ring as it was. -/
theorem closeStepFrame_idle (h : MachineTracks none c.machine) :
    MachineTracks none c.closeStepFrame.machine ∧
    c.closeStepFrame.snapshots.capacity = c.snapshots.capacity ∧
    c.closeStepFrame.snapshots.frames = c.snapshots.frames ∧
    c.closeStepFrame.regs = c.regs ∧ c.closeStepFrame.state = c.state := by
  obtain ⟨hregs, hmem, hheap⟩ := h.idle rfl
  have hregs' : c.regs.recording = false := hregs
  have hmem' : c.mem.recording = false := hmem
  unfold closeStepFrame
  cases hnewest : c.snapshots.newest with
  | none => exact ⟨h, rfl, rfl, rfl, rfl⟩
  | some frame =>
      have hlast : c.snapshots.frames.getLast? = some frame := hnewest
      simp only [RegisterFile.finishUndo, Memory.finishUndo, HeapState.finishUndo, hregs', hmem',
        hheap, Bool.false_eq_true, ↓reduceIte, SnapshotRing.updateNewest, hlast]
      refine ⟨⟨h.budgeted, h.wellFormed, fun _ => ⟨hregs, rfl, rfl⟩, by simp⟩, trivial, ?_,
        rfl, rfl⟩
      exact List.dropLast_append_getLast? frame hlast

/-- A step that is refused leaves the ring and the logged state as they were. -/
theorem Settled.step_refused (h : c.Settled) (p : Platform)
    (hrun : ¬ (c.prepared.halted = false ∧ c.prepared.blocked = false ∧
      c.prepared.stepsTotal < c.prepared.maxTotalSteps ∧ stackFloor ≤ c.prepared.regs.sp)) :
    (c.step p).1.Settled ∧ (c.step p).1.snapshots.frames = c.snapshots.frames ∧
      SameBody (c.step p).1.state c.state := by
  have hprep := h.prepared
  obtain ⟨hmachine, hring, hframes, hcall⟩ := executeStep_refused p hrun
  have hwatch := watchFrameRecords_of_no_writes p (c := (c.prepared.executeStep p).1)
    (by change (c.prepared.executeStep p).1.machine.mem.undo.runs = []; rw [hmachine]; rfl)
    c.regs.pc (c.readGpr 30).2
  have hreads : (c.prepared.executeStep p).1.regs.clobberedReads = default := by
    change (c.prepared.executeStep p).1.machine.regs.clobberedReads = default
    rw [hmachine]
    exact hprep.reads
  have hstate := prepared_state h.reads
  rw [step_eq, hwatch, noteClobberedReads_of_no_reads p hreads]
  generalize (c.prepared.executeStep p).1 = d at hmachine hring hframes hcall hreads ⊢
  have htracks : MachineTracks none (d.setRegs d.regs.takeClobberedReads.1).machine := by
    have hm : MachineTracks none d.machine := hmachine ▸ hprep.machine
    exact hm.regs (RegisterFile.logs_takeClobberedReads _)
  obtain ⟨htracks', hcap, hsame, hregs, hbody⟩ := closeStepFrame_idle htracks
  refine ⟨⟨htracks', by rw [hregs]; rfl, ?_, ?_⟩, ?_, ?_⟩
  · rw [hcap]
    change d.snapshots.capacity = _
    rw [hring]
    exact h.capacity
  · rw [hsame]
    change d.snapshots.frames.length ≤ _
    rw [hring]
    exact h.ring
  · rw [hsame]
    change d.snapshots.frames = _
    rw [hring]
    rfl
  · rw [hbody, ← hstate]
    have hd : ({ d.machine.regs with clobberedReads := default } : RegisterFile) =
        d.machine.regs := by
      have hreads' : d.machine.regs.clobberedReads = default := hreads
      rw [← hreads']
    have htaken : (d.setRegs d.regs.takeClobberedReads.1).machine = c.prepared.machine := by
      rw [← hmachine]
      change (⟨{ d.machine.regs with clobberedReads := default }, d.machine.mem,
        d.machine.heap⟩ : Machine) = d.machine
      rw [hd]
    have hregs := congrArg (fun m : Machine => m.regs.toRegisterState) htaken
    have hpages := congrArg (fun m : Machine => m.mem.pages) htaken
    have hzero := congrArg (fun m : Machine => m.mem.zeroFill) htaken
    have hheap := congrArg (fun m : Machine => m.heap.toHeapTables) htaken
    exact ⟨hregs, hpages, hzero, hheap, hframes, hcall⟩

theorem Settled.step_unrecorded (h : c.Settled) (p : Platform)
    (hrun : c.prepared.halted = false ∧ c.prepared.blocked = false ∧
      c.prepared.stepsTotal < c.prepared.maxTotalSteps ∧ stackFloor ≤ c.prepared.regs.sp)
    (hrec : c.recordsFrames = false) :
    (c.step p).1.Settled ∧ (c.step p).1.snapshots.frames = [] := by
  have hprep := h.prepared
  obtain ⟨hhalted, hblocked, hbudget, hstack⟩ := hrun
  have hexec := executeStep_running p hhalted hblocked hbudget hstack
  have hsettled : Settled { c.prepared with pendingSleepNs := none } :=
    ⟨hprep.machine, hprep.reads, hprep.capacity, hprep.ring⟩
  have htracks := (hsettled.captureUnrecorded hrec).countedStep p c.prepared.regs.pc
  rw [← hexec] at htracks
  have hend := (htracks.watchFrameRecords p c.regs.pc
    (c.readGpr 30).2).noteClobberedReads p c.regs.pc (c.readGpr 30).2
  rw [step_eq, closeStepFrame_unrecorded hend]
  refine ⟨⟨hend.machine, noteClobberedReads_reads p _ _ _, hend.capacity, ?_⟩, hend.ring.idle rfl⟩
  rw [hend.ring.idle rfl]
  exact Nat.zero_le _

theorem Settled.step {c : Cpu} (h : c.Settled) (p : Platform) : (c.step p).1.Settled := by
  by_cases hrun : c.prepared.halted = false ∧ c.prepared.blocked = false ∧
      c.prepared.stepsTotal < c.prepared.maxTotalSteps ∧ stackFloor ≤ c.prepared.regs.sp
  · have hsp : c.prepared.regs.sp = c.regs.sp := by rw [prepared_regs]
    cases hrec : c.recordsFrames with
    | true =>
        obtain ⟨hhalted, hblocked, hbudget, hstack⟩ := hrun
        exact (step_recorded p h ⟨hhalted, hblocked, hbudget, hsp ▸ hstack, hrec⟩).1
    | false => exact (h.step_unrecorded p hrun hrec).1
  · exact (h.step_refused p hrun).1

/-- The frames `newest first` lead from `s` back to `s₀`. -/
def History : List StepFrame → CpuState → CpuState → Prop
  | [], s, s₀ => s = s₀
  | frame :: frames, s, s₀ => ∃ s', LeadsBack frame s s' ∧ History frames s' s₀

/-- After `k` recorded steps the ring ends in `k` frames that lead back. -/
theorem history_iterate (p : Platform) (h : c.Settled) (k : Nat) (hk : k ≤ snapshotCapacity)
    (hrec : ∀ j < k, ((fun c => (c.step p).1)^[j] c).Records) :
    ((fun c => (c.step p).1)^[k] c).Settled ∧
    ∃ older newer, ((fun c => (c.step p).1)^[k] c).snapshots.frames = older ++ newer ∧
      newer.length = k ∧ History newer.reverse ((fun c => (c.step p).1)^[k] c).state c.state := by
  induction k with
  | zero => exact ⟨h, c.snapshots.frames, [], by simp, rfl, rfl⟩
  | succ k ih =>
      obtain ⟨hsettled, older, newer, hring, hlen, hhistory⟩ :=
        ih (by omega) fun j hj => hrec j (by omega)
      rw [Function.iterate_succ_apply']
      obtain ⟨hnext, frame, hframes, hback⟩ :=
        step_recorded p hsettled (hrec k (Nat.lt_succ_self k))
      refine ⟨hnext, ?_⟩
      obtain ⟨kept, hkept⟩ : ∃ kept,
          ((fun c => (c.step p).1)^[k] c).snapshots.makeRoom = kept ++ newer := by
        unfold SnapshotRing.makeRoom
        split
        · next hfull =>
            rw [hring, hsettled.capacity, List.length_append] at hfull
            cases older with
            | nil => simp at hfull; omega
            | cons head older => exact ⟨older, by simp [hring]⟩
        · exact ⟨older, hring⟩
      refine ⟨kept, newer ++ [frame], ?_, by simp [hlen], ?_⟩
      · rw [hframes, hkept, List.append_assoc]
      · rw [List.reverse_append, List.reverse_singleton, List.singleton_append]
        exact ⟨_, hback.leadsBack, hhistory⟩

/-- Taking the newest frames back one by one walks the history. -/
theorem stepBack_history {older newer : List StepFrame} {s₀ : CpuState}
    (hring : c.snapshots.frames = older ++ newer) (h : History newer.reverse c.state s₀) :
    ((fun c => c.stepBack.1)^[newer.length] c).state = s₀ := by
  induction newer using List.reverseRecOn generalizing c with
  | nil => exact h
  | append_singleton newer frame ih =>
      rw [List.reverse_append, List.reverse_singleton, List.singleton_append] at h
      obtain ⟨s', hback, hrest⟩ := h
      rw [List.length_append, List.length_singleton, Function.iterate_succ_apply]
      have hpopped : c.stepBack.1 = ({ c with snapshots := { c.snapshots with
          frames := older ++ newer } } : Cpu).undoFrame frame := by
        simp [stepBack, SnapshotRing.newest, hring, ← List.append_assoc]
      have hstate : c.stepBack.1.state = s' := by
        rw [hpopped]
        exact hback _ rfl
      refine ih (c := c.stepBack.1) ?_ (hstate ▸ hrest)
      rw [hpopped]
      rfl

theorem Settled.stepBack_iterate (h : c.Settled) (p : Platform) (k : Nat)
    (hk : k ≤ snapshotCapacity)
    (hrec : ∀ j < k, ((fun c => (c.step p).1)^[j] c).Records) :
    ((fun c => c.stepBack.1)^[k] ((fun c => (c.step p).1)^[k] c)).state = c.state := by
  obtain ⟨-, older, newer, hring, hlen, hhistory⟩ := history_iterate p h k hk hrec
  have hback := stepBack_history hring hhistory
  rwa [hlen] at hback

end Cpu

end Playground
