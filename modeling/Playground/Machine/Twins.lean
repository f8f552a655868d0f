/-
Two cpus that a program cannot tell apart.  They agree on the registers, memory, the
heap, the small state, the call stack and the image; their undo logs, their budgets, the
output shown before and the notes of the debugger may differ.  A step keeps them so, and
prints and answers the same, while neither meets a budget.
-/
import Playground.Machine.Alike
import Playground.Machine.StepEffects

namespace Playground

/-- The side states agree on all but the output so far and the scratch call record. -/
structure HostSide.Alike (s s' : HostSide) : Prop where
  stdin : s'.stdin = s.stdin
  vfs : s'.vfs = s.vfs
  openFiles : s'.openFiles = s.openFiles
  nextFd : s'.nextFd = s.nextFd
  randState : s'.randState = s.randState
  term : s'.term = s.term
  strtokSave : s'.strtokSave = s.strtokSave
  callbacks : s'.callbacks = s.callbacks

/-- A stub that began with `s` and `s'` left `t` and `t'`: alike, with the same bytes
appended to the output. -/
structure HostSide.Prints (s s' t t' : HostSide) : Prop where
  alike : HostSide.Alike t t'
  stdout : ∃ out, t.stdout = s.stdout ++ out ∧ t'.stdout = s'.stdout ++ out
  stderr : ∃ out, t.stderr = s.stderr ++ out ∧ t'.stderr = s'.stderr ++ out

/-- A stub that appends to the output without reading it, does not read the scratch call
record, and reads the machine through its methods. -/
def HostFn.Blind (fn : HostFn) : Prop :=
  ∀ s s' closed m m', HostSide.Alike s s' → Machine.Alike m m' →
    Routine.Matches (fun ended ended' => HostSide.Prints s s' ended.1 ended'.1 ∧
      ended'.2 = ended.2) (fn s closed m) (fn s' closed m')

/-- Neither the executor nor a stub nor a syscall looks at an undo log, at the output
already printed or at the scratch call record. -/
structure Platform.Blind (p : Platform) : Prop where
  execute : ∀ instr m m', Machine.Alike m m' →
    Routine.Matches (fun ended ended' => ended' = ended) (p.execute instr m) (p.execute instr m')
  host : ∀ entry ∈ p.host.entries, HostFn.Blind entry.2
  syscall : ∀ number, HostFn.Blind (p.syscall number)

/-- Equal up to the step budget. -/
def Copied.Alike (a a' : Copied) : Prop := a' = { a with stepsTotal := a'.stepsTotal }

theorem Copied.Alike.map {a a' : Copied} (h : Copied.Alike a a') (f : Copied → Copied)
    (hf : ∀ n, f { a with stepsTotal := n } = { f a with
      stepsTotal := (f { a with stepsTotal := n }).stepsTotal }) :
    Copied.Alike (f a) (f a') := by
  unfold Copied.Alike at h ⊢
  rw [h]
  exact hf _

/-- The step budgets may move apart. -/
theorem Copied.Alike.steps {a a' : Copied} (h : Copied.Alike a a') (n n' : Nat) :
    Copied.Alike { a with stepsTotal := n } { a' with stepsTotal := n' } := by
  unfold Copied.Alike at h ⊢
  rw [h]

namespace Cpu

/-- What the loader set for the program's image. -/
def image (c : Cpu) : Option Word × Word × List String :=
  (c.textEnd, c.trampolineBase, c.trampolineNames)

/-- Two cpus partway through the same step, which began in `b` and `b'`. -/
structure Paired (b b' c c' : Cpu) : Prop where
  machine : Machine.Alike c.machine c'.machine
  copied : Copied.Alike c.toCopied c'.toCopied
  frames : c'.frames = c.frames
  /-- A program that has stopped leaves a sleep it did not take unread. -/
  pending : c.halted = false → c.blocked = false → c'.pendingSleepNs = c.pendingSleepNs
  abort : c'.abortMessage = c.abortMessage
  image : c'.image = c.image
  stdout : ∃ out, c.stdout = b.stdout ++ out ∧ c'.stdout = b'.stdout ++ out
  stderr : ∃ out, c.stderr = b.stderr ++ out ∧ c'.stderr = b'.stderr ++ out

/-- Nothing that the program or its output depends on changed. -/
structure Unseen (c d : Cpu) : Prop where
  machine : Machine.Alike c.machine d.machine
  copied : Copied.Alike c.toCopied d.toCopied
  frames : d.frames = c.frames
  pending : d.pendingSleepNs = c.pendingSleepNs
  abort : d.abortMessage = c.abortMessage
  image : d.image = c.image
  stdout : d.stdout = c.stdout
  stderr : d.stderr = c.stderr

namespace Paired

variable {b b' c c' d d' : Cpu}

theorem regs (h : Paired b b' c c') : RegisterFile.Alike c.regs c'.regs := h.machine.regs

theorem mem (h : Paired b b' c c') : Memory.Alike c.mem c'.mem := h.machine.mem

theorem pc (h : Paired b b' c c') : c'.regs.pc = c.regs.pc := h.regs.pc

theorem halted (h : Paired b b' c c') : c'.halted = c.halted := congrArg (·.halted) h.copied

theorem blocked (h : Paired b b' c c') : c'.blocked = c.blocked := congrArg (·.blocked) h.copied

theorem exitCode (h : Paired b b' c c') : c'.exitCode = c.exitCode :=
  congrArg (·.exitCode) h.copied

theorem stdin (h : Paired b b' c c') : c'.stdin = c.stdin := congrArg (·.stdin) h.copied

theorem term (h : Paired b b' c c') : c'.term = c.term := congrArg (·.term) h.copied

theorem stepsTaken (h : Paired b b' c c') : c'.stepsTaken = c.stepsTaken :=
  congrArg (·.stepsTaken) h.copied

theorem textEnd (h : Paired b b' c c') : c'.textEnd = c.textEnd := congrArg (·.1) h.image

theorem inProgram (h : Paired b b' c c') (addr : Word) : c'.inProgram addr = c.inProgram addr := by
  unfold Cpu.inProgram
  rw [h.textEnd]

/-- What one side does without being seen. -/
theorem unseen (h : Paired b b' c c') (hc : Unseen c d) (hc' : Unseen c' d') :
    Paired b b' d d' := by
  refine ⟨?_, ?_, ?_, ?_, ?_, ?_, ?_, ?_⟩
  · exact (hc.machine.symm.trans h.machine).trans hc'.machine
  · have hd := hc.copied
    have hd' := hc'.copied
    have hcopied := h.copied
    unfold Copied.Alike at hd hd' hcopied ⊢
    rw [hd', hcopied, hd]
  · rw [hc.frames, hc'.frames, h.frames]
  · intro hrunning hunblocked
    have hhalted : d.halted = c.halted := congrArg (·.halted) hc.copied
    have hblocked : d.blocked = c.blocked := congrArg (·.blocked) hc.copied
    rw [hc.pending, hc'.pending]
    exact h.pending (hhalted ▸ hrunning) (hblocked ▸ hunblocked)
  · rw [hc.abort, hc'.abort, h.abort]
  · rw [hc.image, hc'.image, h.image]
  · rw [hc.stdout, hc'.stdout]
    exact h.stdout
  · rw [hc.stderr, hc'.stderr]
    exact h.stderr

theorem setMachine (h : Paired b b' c c') {m m' : Machine} (hm : Machine.Alike m m') :
    Paired b b' { c with machine := m } { c' with machine := m' } :=
  ⟨hm, h.copied, h.frames, h.pending, h.abort, h.image, h.stdout, h.stderr⟩

theorem setRegs (h : Paired b b' c c') {r r' : RegisterFile} (hr : RegisterFile.Alike r r') :
    Paired b b' (c.setRegs r) (c'.setRegs r') :=
  h.setMachine ⟨hr, h.machine.mem, h.machine.heap⟩

/-- A change of the small state. -/
theorem map (h : Paired b b' c c') (f : Copied → Copied)
    (hf : ∀ n, f { c.toCopied with stepsTotal := n } = { f c.toCopied with
      stepsTotal := (f { c.toCopied with stepsTotal := n }).stepsTotal })
    (hstop : (f c.toCopied).halted = false → (f c.toCopied).blocked = false →
      c.halted = false ∧ c.blocked = false) :
    Paired b b' { c with toCopied := f c.toCopied } { c' with toCopied := f c'.toCopied } := by
  refine ⟨h.machine, h.copied.map f hf, h.frames, ?_, h.abort, h.image, h.stdout, h.stderr⟩
  intro hrunning hunblocked
  obtain ⟨hbefore, hbefore'⟩ := hstop hrunning hunblocked
  exact h.pending hbefore hbefore'

theorem setHalted (h : Paired b b' c c') :
    Paired b b' { c with halted := true } { c' with halted := true } :=
  h.map (fun a => { a with halted := true }) (fun _ => rfl) fun hrunning => by cases hrunning

theorem setBlocked (h : Paired b b' c c') :
    Paired b b' { c with blocked := true } { c' with blocked := true } :=
  h.map (fun a => { a with blocked := true }) (fun _ => rfl) fun _ hunblocked => by
    cases hunblocked

theorem setExited (h : Paired b b' c c') (code : Int) :
    Paired b b' { c with exitCode := some code, halted := true }
      { c' with exitCode := some code, halted := true } :=
  h.map (fun a => { a with exitCode := some code, halted := true }) (fun _ => rfl)
    fun hrunning => by cases hrunning

theorem haltWith (h : Paired b b' c c') (message : String) :
    Paired b b' (c.haltWith message).1 (c'.haltWith message).1 ∧
      (c'.haltWith message).2 = (c.haltWith message).2 := by
  refine ⟨?_, ?_⟩
  · exact ⟨h.machine, h.setHalted.copied, h.frames, h.setHalted.pending, rfl, h.image, h.stdout,
      h.stderr⟩
  · simp only [Cpu.haltWith, h.pc]

theorem readGpr (h : Paired b b' c c') (index : Nat) :
    Paired b b' (c.readGpr index).1 (c'.readGpr index).1 ∧
      (c'.readGpr index).2 = (c.readGpr index).2 := by
  obtain ⟨hregs, hvalue⟩ := h.regs.readGpr index true
  exact ⟨h.setRegs hregs, hvalue⟩

theorem onFrames (h : Paired b b' c c')
    {op op' : CallStack → Option FrameUndo → CallStack × Option FrameUndo}
    (hop : ∀ log log', (op' c'.frames log').1 = (op c.frames log).1) :
    Paired b b' (c.onFrames op) (c'.onFrames op') :=
  ⟨h.machine, h.copied, hop _ _, h.pending, h.abort, h.image, h.stdout, h.stderr⟩

theorem trackCallOrReturn (h : Paired b b' c c') (pc : Word) (kind : CallKind) :
    Paired b b' (c.trackCallOrReturn pc kind) (c'.trackCallOrReturn pc kind) := by
  unfold Cpu.trackCallOrReturn
  cases kind with
  | call =>
      refine h.onFrames fun log log' => ?_
      rw [h.frames, h.pc, h.inProgram, h.regs.snapshot]
      exact CallStack.onCall_log _ _ _ _ _ _ _ h.mem
  | ret =>
      have hreturn := fun log log' => CallStack.onReturn_log c.frames log log' pc c.regs.pc
        c.stepsTaken c.regs.snapshot (c.regs.writeWidth 0)
      have hpopped : Paired b b'
          (c.onFrames fun frames log => (frames.onReturn pc c.regs.pc c.stepsTaken
            c.regs.snapshot (c.regs.writeWidth 0) log).1)
          (c'.onFrames fun frames log => (frames.onReturn pc c.regs.pc c.stepsTaken
            c.regs.snapshot (c.regs.writeWidth 0) log).1) := by
        refine h.onFrames fun log log' => ?_
        rw [h.frames]
        exact (hreturn log log').1
      simp only [h.frames, h.pc, h.stepsTaken, h.regs.snapshot, h.regs.writeWidth,
        (hreturn (c.snapshots.newest.map StepFrame.frames) _).2]
      split
      · exact hpopped.setRegs (hpopped.regs.markCalleeSaved _ pc)
      · exact hpopped
  | lrStore =>
      refine h.onFrames fun log log' => ?_
      rw [h.frames]
      exact CallStack.onLrStore_log _ _ _
  | other => exact h

end Paired

theorem echoSegments_append (rawMode : Bool) (left : Nat) (segments : List StdinSegment)
    (stdout : List Byte) : echoSegments rawMode left segments stdout =
      ((echoSegments rawMode left segments []).1,
        stdout ++ (echoSegments rawMode left segments []).2) := by
  induction segments generalizing left stdout with
  | nil => simp [echoSegments]
  | cons segment segments ih =>
      unfold echoSegments
      split
      · simp
      simp only
      split
      · exact ih left stdout
      · generalize (decide (segment.consumed = 0) && segment.interactive && !segment.echoed &&
          !rawMode) = touch
        have hshown : (if touch then stdout ++ segment.bytes else stdout) =
            stdout ++ (if touch then [] ++ segment.bytes else []) := by
          cases touch <;> simp
        rw [hshown]
        generalize (if touch = true then [] ++ segment.bytes else []) = shown
        split
        · rw [ih _ (stdout ++ shown), ih _ shown, List.append_assoc]
        · rfl

namespace Paired

variable {b b' c c' d d' : Cpu}

theorem echoConsumedStdin (h : Paired b b' c c') (before : Nat) :
    Paired b b' (c.echoConsumedStdin before) (c'.echoConsumedStdin before) := by
  have hsegments : c'.stdinSegments = c.stdinSegments := congrArg (·.stdinSegments) h.copied
  obtain ⟨out, hout, hout'⟩ := h.stdout
  have hechoed : echoSegments c'.term.rawMode (before - c'.stdin.length) c'.stdinSegments [] =
      echoSegments c.term.rawMode (before - c.stdin.length) c.stdinSegments [] := by
    rw [h.term, h.stdin, hsegments]
  unfold Cpu.echoConsumedStdin
  rw [echoSegments_append, echoSegments_append _ _ c'.stdinSegments, hechoed]
  generalize echoSegments c.term.rawMode (before - c.stdin.length) c.stdinSegments [] = echoed
  refine ⟨h.machine, ?_, h.frames, h.pending, h.abort, h.image, ⟨out ++ echoed.2, ?_, ?_⟩, h.stderr⟩
  · exact h.copied.map (fun a => { a with stdinSegments := echoed.1 }) fun _ => rfl
  · simp only [hout, List.append_assoc]
  · simp only [hout', List.append_assoc]

theorem chargeBulkWork (h : Paired b b' c c') (before before' : Nat) :
    Paired b b' (c.chargeBulkWork before) (c'.chargeBulkWork before') := by
  refine h.unseen ⟨Machine.Alike.refl _, rfl, rfl, rfl, rfl, rfl, rfl, rfl⟩
    ⟨Machine.Alike.refl _, rfl, rfl, rfl, rfl, rfl, rfl, rfl⟩

/-- The display counters grow alike: the bytes appended since an earlier moment of the step
are the same. -/
theorem chargeOutput (hbefore : Paired b b' c c') (h : Paired b b' d d') :
    Paired b b' (d.chargeOutput c.stdout.length c.stderr.length).1
      (d'.chargeOutput c'.stdout.length c'.stderr.length).1 := by
  obtain ⟨out₀, hout₀, hout₀'⟩ := hbefore.stdout
  obtain ⟨err₀, herr₀, herr₀'⟩ := hbefore.stderr
  obtain ⟨out, hout, hout'⟩ := h.stdout
  obtain ⟨err, herr, herr'⟩ := h.stderr
  have houtNew : d'.stdout.length - c'.stdout.length = d.stdout.length - c.stdout.length := by
    rw [hout, hout', hout₀, hout₀']
    simp only [List.length_append]
    omega
  have herrNew : d'.stderr.length - c'.stderr.length = d.stderr.length - c.stderr.length := by
    rw [herr, herr', herr₀, herr₀']
    simp only [List.length_append]
    omega
  unfold Cpu.chargeOutput
  simp only [houtNew, herrNew]
  refine ⟨h.machine, ?_, h.frames, h.pending, h.abort, h.image, h.stdout, h.stderr⟩
  exact h.copied.map (fun a => { a with
    stdoutSeen := saturatingAdd a.stdoutSeen (d.stdout.length - c.stdout.length)
    stderrSeen := saturatingAdd a.stderrSeen (d.stderr.length - c.stderr.length) }) fun _ => rfl

theorem applySleep (h : Paired b b' c c') (ns : Nat) :
    Paired b b' (c.applySleep ns) (c'.applySleep ns) := by
  have hterm := h.copied.map (fun a => { a with term :=
    { a.term with virtualNs := saturatingAdd a.term.virtualNs (min ns maxSleepNs) } }) fun _ => rfl
  exact ⟨h.machine, hterm.steps _ _, h.frames, fun _ _ => rfl, h.abort, h.image, h.stdout,
    h.stderr⟩

theorem hostSide (h : Paired b b' c c') : HostSide.Alike c.hostSide c'.hostSide :=
  ⟨h.stdin, congrArg (·.vfs) h.copied, congrArg (·.openFiles) h.copied,
    congrArg (·.nextFd) h.copied, congrArg (·.randState) h.copied, h.term,
    congrArg (·.strtokSave) h.copied, congrArg (·.callbacks) h.copied⟩

theorem runHost (h : Paired b b' c c') {fn : HostFn} (hfn : HostFn.Blind fn) (cards : Bool) :
    Paired b b' (c.runHost fn cards).1 (c'.runHost fn cards).1 ∧
      (c'.runHost fn cards).2 = (c.runHost fn cards).2 := by
  have hclosed : c'.stdinClosed = c.stdinClosed := congrArg (·.stdinClosed) h.copied
  have hmatch := (hfn _ _ c.stdinClosed _ _ h.hostSide h.machine).run h.machine
  unfold Cpu.runHost
  simp only
  rw [hclosed]
  generalize (fn c.hostSide c.stdinClosed c.machine).run c.machine = ended at hmatch ⊢
  generalize (fn c'.hostSide c.stdinClosed c'.machine).run c'.machine = ended' at hmatch ⊢
  obtain ⟨hmachine, ⟨hside, ⟨out, hout, hout'⟩, ⟨err, herr, herr'⟩⟩, houtcome⟩ := hmatch
  obtain ⟨out₀, hout₀, hout₀'⟩ := h.stdout
  obtain ⟨err₀, herr₀, herr₀'⟩ := h.stderr
  refine ⟨⟨hmachine, ?_, h.frames, h.pending, h.abort, h.image, ⟨out₀ ++ out, ?_, ?_⟩,
    ⟨err₀ ++ err, ?_, ?_⟩⟩, houtcome⟩
  · have hsame := h.copied.map (fun a => { a with
      stdin := ended.2.1.stdin, vfs := ended.2.1.vfs, openFiles := ended.2.1.openFiles
      nextFd := ended.2.1.nextFd, randState := ended.2.1.randState, term := ended.2.1.term
      strtokSave := ended.2.1.strtokSave, callbacks := ended.2.1.callbacks }) fun _ => rfl
    simp only [hside.stdin, hside.vfs, hside.openFiles, hside.nextFd, hside.randState, hside.term,
      hside.strtokSave, hside.callbacks]
    rw [hclosed] at hsame
    exact hsame
  · rw [← List.append_assoc, ← hout₀]
    exact hout
  · rw [← List.append_assoc, ← hout₀']
    exact hout'
  · rw [← List.append_assoc, ← herr₀]
    exact herr
  · rw [← List.append_assoc, ← herr₀']
    exact herr'

variable (p : Platform)

theorem hostCallName (h : Paired b b' c c') (pc : Word) :
    c'.hostCallName p pc = c.hostCallName p pc := by
  have hbase : c'.trampolineBase = c.trampolineBase := congrArg (·.2.1) h.image
  have hnames : c'.trampolineNames = c.trampolineNames := congrArg (·.2.2) h.image
  unfold Cpu.hostCallName
  rw [hbase, hnames]

theorem libcReadFault (h : Paired b b' c c') (pc address : Word) :
    Paired b b' (c.libcReadFault p pc address).1 (c'.libcReadFault p pc address).1 ∧
      (c'.libcReadFault p pc address).2 = (c.libcReadFault p pc address).2 := by
  obtain ⟨hread, hvalue⟩ := h.readGpr 0
  unfold Cpu.libcReadFault
  rw [h.hostCallName]
  split
  · exact ⟨h, rfl⟩
  · simp only [hvalue]
    split
    · exact ⟨hread, rfl⟩
    · exact ⟨hread, rfl⟩

theorem dropPassiveReads (h : Paired b b' c c') (pc : Word) (read : BitVec 64) :
    Paired b b' (c.dropPassiveReads p pc read).1 (c'.dropPassiveReads p pc read).1 ∧
      (c'.dropPassiveReads p pc read).2 = (c.dropPassiveReads p pc read).2 := by
  unfold Cpu.dropPassiveReads
  rw [h.mem.readU32]
  split
  · exact ⟨h, rfl⟩
  split
  · exact ⟨h, rfl⟩
  split
  · exact ⟨h, rfl⟩
  · split
    · exact ⟨h.setRegs (h.regs.carryClobber _ _ _), rfl⟩
    · exact ⟨h, rfl⟩
  · exact ⟨h, rfl⟩

end Paired

theorem classifyOutcome_state (c : Cpu) : c.classifyOutcome.1 =
    { c with halted := c.halted || (!c.blocked && c.exitCode.isSome) } := by
  have hsame : (!c.blocked && c.exitCode.isSome) = false →
      { c with halted := c.halted || (!c.blocked && c.exitCode.isSome) } = c := by
    intro hflag
    rw [hflag, Bool.or_false]
  unfold classifyOutcome
  split
  · next hblocked => rw [hsame (by simp [hblocked])]
  next hblocked =>
  split
  · next code hcode =>
      have hflag : (c.halted || (!c.blocked && c.exitCode.isSome)) = true := by
        simp [hblocked, hcode]
      rw [hflag]
  next hcode =>
  rw [hsame (by simp [hcode])]
  split
  · rfl
  split
  · rfl
  · rfl

/-- The notes are the debugger's alone. -/
theorem unseen_noteRead (readBy : BitVec 32) (readPc : Word) (read : BitVec 64) (c : Cpu)
    (code : Nat) : Unseen c (noteRead readBy readPc read c code) := by
  unfold noteRead
  split
  · simp only
    split <;> exact ⟨Machine.Alike.refl _, rfl, rfl, rfl, rfl, rfl, rfl, rfl⟩
  · exact ⟨Machine.Alike.refl _, rfl, rfl, rfl, rfl, rfl, rfl, rfl⟩

/-- The call card is the debugger's alone. -/
theorem unseen_keepCall (c : Cpu) (kind : Nat) (failed : Bool) :
    Unseen c (c.keepCall kind failed) := by
  unfold keepCall
  simp only
  split <;> exact ⟨Machine.Alike.refl _, rfl, rfl, rfl, rfl, rfl, rfl, rfl⟩

theorem unseen_keepCard (c : Cpu) (kind : Nat) (outcome : Except EmuError HostOutcome) :
    Unseen c (c.keepCard kind outcome) := by
  have hsame : Unseen c c := ⟨Machine.Alike.refl _, rfl, rfl, rfl, rfl, rfl, rfl, rfl⟩
  unfold keepCard
  split
  · exact hsame
  · split
    · exact unseen_keepCall c kind false
    · exact hsame
  · split
    · exact unseen_keepCall c kind true
    · exact hsame

namespace Paired

variable {b b' c c' d d' : Cpu} (p : Platform)

theorem noteClobberedReads (h : Paired b b' c c') (pc lr : Word) :
    Paired b b' (c.noteClobberedReads p pc lr) (c'.noteClobberedReads p pc lr) := by
  have hfold : ∀ (codes : List Nat) (readBy : BitVec 32) (readPc : Word) (read : BitVec 64)
      (d d' : Cpu), Paired b b' d d' → Paired b b' (codes.foldl (noteRead readBy readPc read) d)
        (codes.foldl (noteRead readBy readPc read) d') := by
    intro codes readBy readPc read
    induction codes with
    | nil => exact fun d d' hd => hd
    | cons code codes ih =>
        exact fun d d' hd => ih _ _ (hd.unseen (unseen_noteRead readBy readPc read d code)
          (unseen_noteRead readBy readPc read d' code))
  obtain ⟨hregs, hreads⟩ := h.regs.takeClobberedReads
  have htaken := h.setRegs hregs
  unfold Cpu.noteClobberedReads
  simp only [hreads]
  split
  · exact htaken
  · split
    · obtain ⟨hdropped, hread⟩ := htaken.dropPassiveReads p pc
        (c.regs.takeClobberedReads.2.d ++ c.regs.takeClobberedReads.2.x)
      rw [hread]
      exact hfold _ _ _ _ _ _ hdropped
    · exact hfold _ _ _ _ _ _ htaken

theorem clobberAfterCall (h : Paired b b' c c') (stubPc : Word) :
    Paired b b' (c.clobberAfterCall p stubPc) (c'.clobberAfterCall p stubPc) := by
  obtain ⟨hread, hlr⟩ := h.readGpr 30
  unfold Cpu.clobberAfterCall
  simp only [hlr]
  have hnoted := hread.noteClobberedReads p stubPc (c.readGpr 30).2
  exact hnoted.setRegs (hnoted.regs.clobberCallerSaved _ _ _)

theorem returnToLr (h : Paired b b' c c') : Paired b b' c.returnToLr c'.returnToLr := by
  obtain ⟨hread, hlr⟩ := h.readGpr 30
  unfold Cpu.returnToLr
  simp only [hlr]
  exact hread.setRegs (hread.regs.writePc _)

theorem applyStubOutcome (h : Paired b b' c c') (pc : Word) (outcome : HostOutcome) :
    Paired b b' (c.applyStubOutcome p pc outcome) (c'.applyStubOutcome p pc outcome) := by
  cases outcome with
  | «continue» => exact (h.clobberAfterCall p pc).returnToLr
  | needInput => exact h.setBlocked
  | sleep ns => exact ((h.applySleep ns).clobberAfterCall p pc).returnToLr
  | exited code => exact h.setExited code
  | call target =>
      have hentered := h.setRegs (h.regs.writePc target)
      unfold Cpu.applyStubOutcome
      simp only [hentered.inProgram]
      split
      · refine hentered.onFrames fun log log' => ?_
        rw [hentered.frames, hentered.regs.snapshot]
        exact CallStack.onRuntimeCall_log _ _ _ _ _ _
      · exact hentered

theorem enterStub (h : Paired b b' c c') (pc : Word) :
    Paired b b' (c.enterStub pc) (c'.enterStub pc) :=
  ⟨h.machine, h.copied.map (fun a => { a with callbacks := { a.callbacks with stubPc := pc } })
    fun _ => rfl, h.frames, h.pending, h.abort, h.image, h.stdout, h.stderr⟩

theorem dispatchHostStub (h : Paired b b' c c') (pc : Word) {fn : HostFn}
    (hfn : HostFn.Blind fn) :
    Paired b b' (c.dispatchHostStub p pc fn).1 (c'.dispatchHostStub p pc fn).1 ∧
      (c'.dispatchHostStub p pc fn).2 = (c.dispatchHostStub p pc fn).2 := by
  have hrun := (h.enterStub pc).runHost hfn (cardKind p pc ≠ 0)
  unfold Cpu.dispatchHostStub
  simp only
  generalize (c.enterStub pc).runHost fn (cardKind p pc ≠ 0) = ran at hrun ⊢
  generalize (c'.enterStub pc).runHost fn (cardKind p pc ≠ 0) = ran' at hrun ⊢
  obtain ⟨hpaired, houtcome⟩ := hrun
  rw [houtcome]
  have hkept := hpaired.unseen (unseen_keepCard ran.1 (cardKind p pc) ran.2)
    (unseen_keepCard ran'.1 (cardKind p pc) ran.2)
  split
  · exact ⟨hkept, rfl⟩
  · next hostOutcome _ =>
      have happlied := hkept.applyStubOutcome p pc hostOutcome
      refine ⟨happlied, ?_⟩
      rw [happlied.pc, happlied.halted]

theorem dispatchSyscall (h : Paired b b' c c') (hp : p.Blind) (number : Nat) :
    Paired b b' (c.dispatchSyscall p number).1 (c'.dispatchSyscall p number).1 ∧
      (c'.dispatchSyscall p number).2 = (c.dispatchSyscall p number).2 := by
  have hrun := h.runHost (hp.syscall number) false
  unfold Cpu.dispatchSyscall
  simp only
  generalize c.runHost (p.syscall number) false = ran at hrun ⊢
  generalize c'.runHost (p.syscall number) false = ran' at hrun ⊢
  obtain ⟨hpaired, houtcome⟩ := hrun
  rw [houtcome]
  split
  · exact ⟨hpaired, rfl⟩
  · exact ⟨hpaired, rfl⟩
  · exact ⟨hpaired, rfl⟩
  · exact ⟨hpaired.setBlocked, rfl⟩
  · exact ⟨hpaired.applySleep _, rfl⟩
  · exact ⟨hpaired.setExited _, rfl⟩

/-- A stub that neither side is stopped in by the output wall. -/
theorem stubStep (h : Paired b b' c c') (pc : Word) {fn : HostFn} (hfn : HostFn.Blind fn)
    (hwall : (c.stubStep p pc fn).2.error ≠ some outputCeilingMessage)
    (hwall' : (c'.stubStep p pc fn).2.error ≠ some outputCeilingMessage) :
    Paired b b' (c.stubStep p pc fn).1 (c'.stubStep p pc fn).1 ∧
      (c'.stubStep p pc fn).2 = (c.stubStep p pc fn).2 := by
  unfold Cpu.stubStep at hwall hwall' ⊢
  simp only [h.regs.sp, h.stdin] at hwall hwall' ⊢
  split
  · exact h.haltWith _
  next haligned =>
  rw [if_neg haligned] at hwall hwall'
  have hrun := h.dispatchHostStub p pc hfn
  generalize c.dispatchHostStub p pc fn = ran at hrun hwall ⊢
  generalize c'.dispatchHostStub p pc fn = ran' at hrun hwall' ⊢
  obtain ⟨hpaired, hdispatched⟩ := hrun
  have hcharged := h.chargeOutput ((hpaired.echoConsumedStdin c.stdin.length).chargeBulkWork
    c.mem.bytesWritten c'.mem.bytesWritten)
  generalize ((ran.1.echoConsumedStdin c.stdin.length).chargeBulkWork
    c.mem.bytesWritten).chargeOutput c.stdout.length c.stderr.length = charged at hcharged hwall ⊢
  generalize ((ran'.1.echoConsumedStdin c.stdin.length).chargeBulkWork
    c'.mem.bytesWritten).chargeOutput c'.stdout.length c'.stderr.length = charged'
    at hcharged hwall' ⊢
  have hopen : ¬ charged.2 = true := by
    intro hbreached
    rw [if_pos hbreached] at hwall
    exact hwall rfl
  have hopen' : ¬ charged'.2 = true := by
    intro hbreached
    rw [if_pos hbreached] at hwall'
    exact hwall' rfl
  rw [if_neg hopen, if_neg hopen', hdispatched]
  split
  · exact ⟨hcharged, rfl⟩
  · exact hcharged.haltWith _
  · next address _ =>
      obtain ⟨hread, herror⟩ := hcharged.libcReadFault p pc address
      simp only [herror]
      exact hread.haltWith _
  · exact hcharged.haltWith _

/-- A syscall that neither side is stopped in by the output wall. -/
theorem syscallStep (h : Paired b b' c c') (hp : p.Blind) (pc : Word) (number : Nat)
    (hwall : ∀ result, (c.syscallStep p pc number).2 = some result →
      result.error ≠ some outputCeilingMessage)
    (hwall' : ∀ result, (c'.syscallStep p pc number).2 = some result →
      result.error ≠ some outputCeilingMessage) :
    Paired b b' (c.syscallStep p pc number).1 (c'.syscallStep p pc number).1 ∧
      (c'.syscallStep p pc number).2 = (c.syscallStep p pc number).2 := by
  unfold Cpu.syscallStep at hwall hwall' ⊢
  simp only [h.stdin] at hwall hwall' ⊢
  have hrun := h.dispatchSyscall p hp number
  generalize c.dispatchSyscall p number = ran at hrun hwall ⊢
  generalize c'.dispatchSyscall p number = ran' at hrun hwall' ⊢
  obtain ⟨hpaired, hdispatched⟩ := hrun
  have hcharged := h.chargeOutput ((hpaired.echoConsumedStdin c.stdin.length).chargeBulkWork
    c.mem.bytesWritten c'.mem.bytesWritten)
  generalize ((ran.1.echoConsumedStdin c.stdin.length).chargeBulkWork
    c.mem.bytesWritten).chargeOutput c.stdout.length c.stderr.length = charged at hcharged hwall ⊢
  generalize ((ran'.1.echoConsumedStdin c.stdin.length).chargeBulkWork
    c'.mem.bytesWritten).chargeOutput c'.stdout.length c'.stderr.length = charged'
    at hcharged hwall' ⊢
  have hopen : ¬ charged.2 = true := by
    intro hbreached
    rw [if_pos hbreached] at hwall
    exact hwall _ rfl rfl
  have hopen' : ¬ charged'.2 = true := by
    intro hbreached
    rw [if_pos hbreached] at hwall'
    exact hwall' _ rfl rfl
  rw [if_neg hopen, if_neg hopen', hdispatched]
  split
  · obtain ⟨hhalted, hresult⟩ := hcharged.haltWith memoryCapMessage
    exact ⟨hhalted, congrArg some hresult⟩
  · next e _ _ =>
      obtain ⟨hhalted, hresult⟩ := hcharged.haltWith e.toString
      exact ⟨hhalted, congrArg some hresult⟩
  · rw [hcharged.blocked]
    split
    · exact ⟨hcharged, rfl⟩
    · exact ⟨hcharged.setRegs (hcharged.regs.writePc _), rfl⟩

theorem trapStep (h : Paired b b' c c') (hp : p.Blind) (pc : Word) (ended : ExecResult)
    (hwall : ∀ result, (c.trapStep p pc ended).2 = some result →
      result.error ≠ some outputCeilingMessage)
    (hwall' : ∀ result, (c'.trapStep p pc ended).2 = some result →
      result.error ≠ some outputCeilingMessage) :
    Paired b b' (c.trapStep p pc ended).1 (c'.trapStep p pc ended).1 ∧
      (c'.trapStep p pc ended).2 = (c.trapStep p pc ended).2 := by
  obtain ⟨hread, hnumber⟩ := h.readGpr 8
  unfold Cpu.trapStep at hwall hwall' ⊢
  simp only [hnumber] at hwall hwall' ⊢
  split
  · next htrapped =>
      simp only [if_pos htrapped] at hwall hwall'
      split
      · exact ⟨hread.setHalted, rfl⟩
      · next hnonzero =>
          rw [if_neg hnonzero] at hwall hwall'
          exact hread.syscallStep p hp pc _ hwall hwall'
  · exact ⟨h, rfl⟩

theorem classifyOutcome (h : Paired b b' c c') :
    Paired b b' c.classifyOutcome.1 c'.classifyOutcome.1 ∧
      c'.classifyOutcome.2 = c.classifyOutcome.2 := by
  refine ⟨?_, ?_⟩
  · rw [classifyOutcome_state, classifyOutcome_state]
    refine h.map (fun a => { a with halted := a.halted || (!a.blocked && a.exitCode.isSome) })
      (fun _ => rfl) fun hrunning hunblocked => ⟨?_, hunblocked⟩
    exact (Bool.or_eq_false_iff.mp hrunning).1
  · unfold Cpu.classifyOutcome
    rw [h.blocked, h.exitCode, h.halted]
    split
    · rfl
    next hunblocked =>
    split
    · rfl
    split
    · rfl
    next hrunning =>
    rw [h.pending (Bool.eq_false_iff.mpr hrunning) (Bool.eq_false_iff.mpr hunblocked)]
    split
    · rfl
    · rfl

theorem finishInstruction (h : Paired b b' c c') (hp : p.Blind) (pc : Word) (kind : CallKind)
    (ended : ExecResult)
    (hwall : (c.finishInstruction p pc kind ended).2.error ≠ some outputCeilingMessage)
    (hwall' : (c'.finishInstruction p pc kind ended).2.error ≠ some outputCeilingMessage) :
    Paired b b' (c.finishInstruction p pc kind ended).1 (c'.finishInstruction p pc kind ended).1 ∧
      (c'.finishInstruction p pc kind ended).2 = (c.finishInstruction p pc kind ended).2 := by
  have hmoved : Paired b b'
      (if ended = .advance then c.setRegs (c.regs.writePc (pc + 4)) else c)
      (if ended = .advance then c'.setRegs (c'.regs.writePc (pc + 4)) else c') := by
    split
    · exact h.setRegs (h.regs.writePc _)
    · exact h
  have htracked := hmoved.trackCallOrReturn pc kind
  unfold Cpu.finishInstruction at hwall hwall' ⊢
  simp only at hwall hwall' ⊢
  generalize Cpu.trackCallOrReturn (if ended = .advance then c.setRegs (c.regs.writePc (pc + 4))
    else c) pc kind = d at htracked hwall ⊢
  generalize Cpu.trackCallOrReturn (if ended = .advance then c'.setRegs (c'.regs.writePc (pc + 4))
    else c') pc kind = d' at htracked hwall' ⊢
  have hstopped : Paired b b' (if ended = .halted then { d with halted := true } else d)
      (if ended = .halted then { d' with halted := true } else d') := by
    split
    · exact htracked.setHalted
    · exact htracked
  generalize (if ended = .halted then { d with halted := true } else d) = e at hstopped hwall ⊢
  generalize (if ended = .halted then { d' with halted := true } else d') = e' at hstopped hwall' ⊢
  have htrap := hstopped.trapStep p hp pc ended
    (fun result hresult hmessage => hwall (by
      rw [show e.trapStep p pc ended = ((e.trapStep p pc ended).1, some result) from
        Prod.ext rfl hresult]
      exact hmessage))
    (fun result hresult hmessage => hwall' (by
      rw [show e'.trapStep p pc ended = ((e'.trapStep p pc ended).1, some result) from
        Prod.ext rfl hresult]
      exact hmessage))
  generalize e.trapStep p pc ended = trapped at htrap ⊢
  generalize e'.trapStep p pc ended = trapped' at htrap ⊢
  obtain ⟨f, stopped⟩ := trapped
  obtain ⟨f', stopped'⟩ := trapped'
  obtain ⟨hpaired, rfl⟩ := htrap
  cases stopped' with
  | some result => exact ⟨hpaired, rfl⟩
  | none =>
      obtain ⟨hclassified, houtcome⟩ := hpaired.classifyOutcome
      refine ⟨hclassified, ?_⟩
      simp only [hclassified.pc, hclassified.halted, houtcome]

theorem executeInstruction (h : Paired b b' c c') (hp : p.Blind) (instr : p.Instr) :
    Paired b b' (c.executeInstruction p instr).1 (c'.executeInstruction p instr).1 ∧
      (c'.executeInstruction p instr).2 = (c.executeInstruction p instr).2 := by
  obtain ⟨hmachine, hresult⟩ := (hp.execute instr _ _ h.machine).run h.machine
  exact ⟨h.setMachine hmachine, hresult⟩

theorem instructionStep (h : Paired b b' c c') (hp : p.Blind) (pc : Word)
    (hwall : (c.instructionStep p pc).2.error ≠ some outputCeilingMessage)
    (hwall' : (c'.instructionStep p pc).2.error ≠ some outputCeilingMessage) :
    Paired b b' (c.instructionStep p pc).1 (c'.instructionStep p pc).1 ∧
      (c'.instructionStep p pc).2 = (c.instructionStep p pc).2 := by
  unfold Cpu.instructionStep at hwall hwall' ⊢
  by_cases hend : c.textEnd = some pc
  · rw [if_pos hend, if_pos (h.textEnd.trans hend)]
    exact ⟨⟨h.machine, h.setHalted.copied, h.frames, h.setHalted.pending, rfl, h.image, h.stdout,
      h.stderr⟩, rfl⟩
  have hend' : ¬ c'.textEnd = some pc := by
    rw [h.textEnd]
    exact hend
  rw [if_neg hend] at hwall ⊢
  rw [if_neg hend'] at hwall' ⊢
  rw [h.inProgram] at hwall' ⊢
  have hnoted : Paired b b' (if c.inProgram pc then { c with lastProgramPc := pc } else c)
      (if c.inProgram pc then { c' with lastProgramPc := pc } else c') := by
    split
    · exact h.map (fun a => { a with lastProgramPc := pc }) (fun _ => rfl) fun hrunning
        hunblocked => ⟨hrunning, hunblocked⟩
    · exact h
  simp only at hwall hwall' ⊢
  generalize (if c.inProgram pc then { c with lastProgramPc := pc } else c) = d
    at hnoted hwall ⊢
  generalize (if c.inProgram pc then { c' with lastProgramPc := pc } else c') = d'
    at hnoted hwall' ⊢
  rw [hnoted.mem.readU32] at hwall' ⊢
  split
  · exact hnoted.haltWith _
  next word hword =>
  simp only [hword] at hwall hwall'
  split
  · exact hnoted.haltWith _
  next instr hinstr =>
  simp only [hinstr] at hwall hwall'
  have hrun := hnoted.executeInstruction p hp instr
  generalize d.executeInstruction p instr = ran at hrun hwall ⊢
  generalize d'.executeInstruction p instr = ran' at hrun hwall' ⊢
  obtain ⟨e, result⟩ := ran
  obtain ⟨e', result'⟩ := ran'
  obtain ⟨hpaired, rfl⟩ := hrun
  simp only at hwall hwall' ⊢
  split
  · exact hpaired.haltWith _
  · exact hpaired.haltWith _
  · exact hpaired.finishInstruction p hp pc _ _ hwall hwall'

theorem countedStep (h : Paired b b' c c') (hp : p.Blind) (pc : Word)
    (hwall : (c.countedStep p pc).2.error ≠ some outputCeilingMessage)
    (hwall' : (c'.countedStep p pc).2.error ≠ some outputCeilingMessage) :
    Paired b b' (c.countedStep p pc).1 (c'.countedStep p pc).1 ∧
      (c'.countedStep p pc).2 = (c.countedStep p pc).2 := by
  have hcounted : Paired b b'
      { c with stepsTotal := c.stepsTotal + 1, stepsTaken := c.stepsTaken + 1 }
      { c' with stepsTotal := c'.stepsTotal + 1, stepsTaken := c'.stepsTaken + 1 } :=
    h.map (fun a => { a with stepsTotal := a.stepsTotal + 1, stepsTaken := a.stepsTaken + 1 })
      (fun _ => rfl) fun hrunning hunblocked => ⟨hrunning, hunblocked⟩
  unfold Cpu.countedStep at hwall hwall' ⊢
  simp only at hwall hwall' ⊢
  split
  · next entry hentry =>
      simp only [hentry] at hwall hwall'
      have hmem : entry ∈ p.host.entries := by
        unfold HostTable.entryAt at hentry
        split at hentry
        · exact List.mem_of_getElem? hentry
        · cases hentry
      exact hcounted.stubStep p pc (hp.host entry hmem) hwall hwall'
  · next hentry =>
      simp only [hentry] at hwall hwall'
      exact hcounted.instructionStep p hp pc hwall hwall'

theorem watchFrameRecords (h : Paired b b' c c') (pc lr : Word) :
    Paired b b' (c.watchFrameRecords p pc lr) (c'.watchFrameRecords p pc lr) := by
  have hwrites : c'.mem.stepWrites = c.mem.stepWrites := h.mem.runs
  unfold Cpu.watchFrameRecords
  simp only [hwrites]
  split
  · exact h
  · refine h.onFrames fun log log' => ?_
    rw [h.frames, h.stepsTaken, h.regs.snapshot]
    exact CallStack.watchWrites_log _ _ _ _ _ h.mem _

end Paired

/-- Opening the frame of a step changes nothing but the logs. -/
theorem unseen_captureStepSnapshot {c : Cpu} (hruns : c.mem.undo.runs = []) :
    Unseen c c.captureStepSnapshot := by
  unfold captureStepSnapshot
  split
  · exact ⟨⟨rfl, ⟨rfl, rfl, rfl, rfl, hruns.symm⟩, rfl⟩, rfl, rfl, rfl, rfl, rfl, rfl, rfl⟩
  · exact ⟨Machine.Alike.refl _, rfl, rfl, rfl, rfl, rfl, rfl, rfl⟩

/-- What a step does once it is neither halted nor blocked. -/
def pastWalls (p : Platform) (c : Cpu) : Cpu × StepResult :=
  match c.checkRunawayWalls with
  | (c, some halt) => (c, halt)
  | (c, none) => c.captureStepSnapshot.countedStep p c.regs.pc

theorem pastWalls_of_met (p : Platform) {c : Cpu} (h : c.maxTotalSteps ≤ c.stepsTotal) :
    (c.pastWalls p).2.error = some stepCeilingMessage := by
  simp only [pastWalls, checkRunawayWalls, if_pos h]
  rfl

theorem pastWalls_of_within (p : Platform) {c : Cpu} (h : ¬ c.maxTotalSteps ≤ c.stepsTotal) :
    c.pastWalls p = if c.regs.sp < stackFloor then c.runtimeErrorHalt .stackOverflow
      else c.captureStepSnapshot.countedStep p c.regs.pc := by
  simp only [pastWalls, checkRunawayWalls, if_neg h]
  by_cases hstack : c.regs.sp < stackFloor
  · simp only [if_pos hstack]
  · simp only [if_neg hstack]

theorem Paired.pastWalls {b b' c c' : Cpu} (p : Platform) (h : Paired b b' c c') (hp : p.Blind)
    (hruns : c.mem.undo.runs = []) (hruns' : c'.mem.undo.runs = [])
    (hwall : (c.pastWalls p).2.error ≠ some stepCeilingMessage ∧
      (c.pastWalls p).2.error ≠ some outputCeilingMessage)
    (hwall' : (c'.pastWalls p).2.error ≠ some stepCeilingMessage ∧
      (c'.pastWalls p).2.error ≠ some outputCeilingMessage) :
    Paired b b' (c.pastWalls p).1 (c'.pastWalls p).1 ∧
      (c'.pastWalls p).2 = (c.pastWalls p).2 := by
  obtain ⟨hsteps, houtput⟩ := hwall
  obtain ⟨hsteps', houtput'⟩ := hwall'
  rw [pastWalls_of_within p fun hmet => hsteps (pastWalls_of_met p hmet)] at houtput ⊢
  rw [pastWalls_of_within p fun hmet => hsteps' (pastWalls_of_met p hmet), h.regs.sp, h.pc]
    at houtput' ⊢
  split
  · exact h.haltWith _
  · next hstack =>
      rw [if_neg hstack] at houtput houtput'
      have hopened := h.unseen (unseen_captureStepSnapshot hruns)
        (unseen_captureStepSnapshot hruns')
      exact hopened.countedStep p hp _ houtput houtput'

/-- No step has been charged or refunded: what `closeStdin` takes for a fresh program. -/
def Unstepped (c : Cpu) : Prop := c.stepsTotal = 0 ∧ c.refundStepsTotal = 0

/-- Two cpus between steps that a program cannot tell apart. -/
structure Twins (c c' : Cpu) : Prop where
  regs : RegisterFile.Alike c.regs c'.regs
  mem : Memory.Alike c.mem.startStep c'.mem.startStep
  heap : HeapState.Alike c.machine.heap c'.machine.heap
  copied : Copied.Alike c.toCopied c'.toCopied
  frames : c'.frames = c.frames
  abort : c'.abortMessage = c.abortMessage
  image : c'.image = c.image
  unstepped : c'.Unstepped ↔ c.Unstepped

/-- The step stops at the wall of the step budget or of the output budget. -/
def MeetsBudget (p : Platform) (c : Cpu) : Prop :=
  (c.step p).2.error = some stepCeilingMessage ∨ (c.step p).2.error = some outputCeilingMessage

theorem budget_of_not_meetsBudget (p : Platform) {c : Cpu} (hrunning : c.halted = false)
    (hunblocked : c.blocked = false) (h : ¬ c.MeetsBudget p) : c.stepsTotal < c.maxTotalSteps := by
  by_contra hmet
  refine h (Or.inl ?_)
  change (c.prepared.executeStep p).2.error = _
  have hawake : c.prepared.executeStep p =
      Cpu.pastWalls p { c.prepared with pendingSleepNs := none } := by
    have hrunning : ¬ c.prepared.halted = true := Bool.eq_false_iff.mp hrunning
    have hunblocked : ¬ c.prepared.blocked = true := Bool.eq_false_iff.mp hunblocked
    rw [executeStep, if_neg hrunning, if_neg hunblocked]
    rfl
  rw [hawake]
  exact pastWalls_of_met p (Nat.le_of_not_lt hmet)

/-- An executed step is charged, or the sleep that took its charge back is noted. -/
theorem not_unstepped_step (p : Platform) {c : Cpu} (h : c.Executes) :
    ¬ (c.step p).1.Unstepped := by
  obtain ⟨r, b, hdone⟩ := executed_step p h
  have hsteps := hdone.steps
  have hrefunded := hdone.stepsRefunded
  rintro ⟨hzero, hnone⟩
  omega

theorem unstepped_step_refused (p : Platform) {c : Cpu} (h : ¬ c.Executes) :
    (c.step p).1.Unstepped ↔ c.Unstepped := by
  have hcounters := (silent_step_refused p h).counters
  have hsteps : (c.step p).1.stepsTotal = c.stepsTotal := congrArg Counters.stepsTotal hcounters
  have hrefunded : (c.step p).1.refundStepsTotal = c.refundStepsTotal :=
    congrArg Counters.refundStepsTotal hcounters
  unfold Unstepped
  rw [hsteps, hrefunded]

namespace Twins

variable {c c' : Cpu} (p : Platform)

theorem prepared (h : Twins c c') : Machine.Alike c.prepared.machine c'.prepared.machine := by
  obtain ⟨hread, -⟩ := h.regs.readGpr 30 true
  exact ⟨hread.takeClobberedReads.1, h.mem, h.heap⟩

theorem nothing_printed (b b' : List Byte) : ∃ out, b = b ++ out ∧ b' = b' ++ out :=
  ⟨[], (List.append_nil _).symm, (List.append_nil _).symm⟩

/-- A step of a program that has stopped. -/
theorem paired_stopped (h : Twins c c') (hstop : c.halted = false → c.blocked = true) :
    Paired c c' c.prepared c'.prepared := by
  refine ⟨h.prepared, h.copied, h.frames, fun hrunning hunblocked => ?_, h.abort, h.image,
    nothing_printed _ _, nothing_printed _ _⟩
  have hblocked : c.blocked = true := hstop hrunning
  have hunblocked : c.blocked = false := hunblocked
  rw [hblocked] at hunblocked
  cases hunblocked

/-- The start of a step that runs. -/
theorem paired_awake (h : Twins c c') : Paired c c' { c.prepared with pendingSleepNs := none }
    { c'.prepared with pendingSleepNs := none } :=
  ⟨h.prepared, h.copied, h.frames, fun _ _ => rfl, h.abort, h.image, nothing_printed _ _,
    nothing_printed _ _⟩

theorem executeStep (h : Twins c c') (hp : p.Blind) (hwithin : ¬ c.MeetsBudget p)
    (hwithin' : ¬ c'.MeetsBudget p) :
    Paired c c' (c.prepared.executeStep p).1 (c'.prepared.executeStep p).1 ∧
      (c'.prepared.executeStep p).2 = (c.prepared.executeStep p).2 := by
  have hhalted : c'.prepared.halted = c.prepared.halted := congrArg (·.halted) h.copied
  have hblocked : c'.prepared.blocked = c.prepared.blocked := congrArg (·.blocked) h.copied
  have hexit : c'.prepared.exitCode = c.prepared.exitCode := congrArg (·.exitCode) h.copied
  have hwall : (c.prepared.executeStep p).2.error ≠ some stepCeilingMessage ∧
      (c.prepared.executeStep p).2.error ≠ some outputCeilingMessage := not_or.mp hwithin
  have hwall' : (c'.prepared.executeStep p).2.error ≠ some stepCeilingMessage ∧
      (c'.prepared.executeStep p).2.error ≠ some outputCeilingMessage := not_or.mp hwithin'
  unfold Cpu.executeStep at hwall hwall' ⊢
  simp only [hhalted, hblocked] at hwall' ⊢
  split
  · next hstop =>
      have hpaired := h.paired_stopped fun hrunning => by
        rw [show c.halted = true from hstop] at hrunning
        cases hrunning
      exact ⟨hpaired, by rw [hpaired.pc, hexit]⟩
  next hrunning =>
  rw [if_neg hrunning] at hwall hwall'
  split
  · next hstop =>
      have hpaired := h.paired_stopped fun _ => hstop
      exact ⟨hpaired, by rw [hpaired.pc]⟩
  next hunblocked =>
  rw [if_neg hunblocked] at hwall hwall'
  exact h.paired_awake.pastWalls p hp rfl rfl hwall hwall'

/-- Closing the frame of a step trades log buffers, and nothing else. -/
theorem closeStepFrame_eq (c : Cpu) : ∃ m ring, c.closeStepFrame =
      { c with machine := m, snapshots := ring } ∧
    RegisterFile.Alike c.regs m.regs ∧ Memory.Alike c.mem.startStep m.mem.startStep ∧
    HeapState.Alike c.machine.heap m.heap := by
  unfold Cpu.closeStepFrame
  split
  · exact ⟨_, _, rfl, rfl, Memory.Alike.refl _, rfl⟩
  · next frame _ =>
      refine ⟨_, _, rfl, ?_, ?_, ?_⟩
      · unfold RegisterFile.finishUndo
        split <;> rfl
      · unfold Memory.finishUndo
        split <;> exact ⟨rfl, rfl, rfl, rfl, rfl⟩
      · unfold HeapState.finishUndo
        split <;> rfl

/-- Two steps that ended alike leave twins once their frames are closed. -/
theorem of_paired {b b' : Cpu} (h : Paired b b' c c')
    (hunstepped : c'.closeStepFrame.Unstepped ↔ c.closeStepFrame.Unstepped) :
    Twins c.closeStepFrame c'.closeStepFrame := by
  obtain ⟨m, ring, heq, hregs, hmem, hheap⟩ := closeStepFrame_eq c
  obtain ⟨m', ring', heq', hregs', hmem', hheap'⟩ := closeStepFrame_eq c'
  have hstart : Memory.Alike c.mem.startStep c'.mem.startStep :=
    ⟨h.mem.pages, h.mem.dirty, h.mem.written, h.mem.zeroFill, rfl⟩
  rw [heq, heq'] at hunstepped ⊢
  refine ⟨?_, ?_, ?_, h.copied, h.frames, h.abort, h.image, hunstepped⟩
  · exact hregs'.trans (h.regs.trans hregs.symm)
  · exact (hmem.symm.trans hstart).trans hmem'
  · exact hheap'.trans (h.machine.heap.trans hheap.symm)

theorem executes_iff (h : Twins c c') (hwithin : ¬ c.MeetsBudget p)
    (hwithin' : ¬ c'.MeetsBudget p) : c'.Executes ↔ c.Executes := by
  have hhalted : c'.halted = c.halted := congrArg (·.halted) h.copied
  have hblocked : c'.blocked = c.blocked := congrArg (·.blocked) h.copied
  have hsp : c'.regs.sp = c.regs.sp := h.regs.sp
  constructor
  · intro hexec
    have hrunning : c.halted = false := hhalted ▸ hexec.running
    have hunblocked : c.blocked = false := hblocked ▸ hexec.unblocked
    exact ⟨hrunning, hunblocked, budget_of_not_meetsBudget p hrunning hunblocked hwithin,
      hsp ▸ hexec.stack⟩
  · intro hexec
    have hrunning : c'.halted = false := hhalted.trans hexec.running
    have hunblocked : c'.blocked = false := hblocked.trans hexec.unblocked
    exact ⟨hrunning, hunblocked, budget_of_not_meetsBudget p hrunning hunblocked hwithin',
      hsp ▸ hexec.stack⟩

/-- Whether a program has taken its first step, the two steps leave alike. -/
theorem unstepped_step (h : Twins c c') (hwithin : ¬ c.MeetsBudget p)
    (hwithin' : ¬ c'.MeetsBudget p) : (c'.step p).1.Unstepped ↔ (c.step p).1.Unstepped := by
  have hiff := h.executes_iff p hwithin hwithin'
  by_cases hexec : c.Executes
  · exact iff_of_false (not_unstepped_step p (hiff.mpr hexec)) (not_unstepped_step p hexec)
  · rw [unstepped_step_refused p hexec, unstepped_step_refused p fun hexec' =>
      hexec (hiff.mp hexec')]
    exact h.unstepped

/-- One step from twins: the same answer, the same output, and twins again. -/
theorem step (h : Twins c c') (hp : p.Blind) (hwithin : ¬ c.MeetsBudget p)
    (hwithin' : ¬ c'.MeetsBudget p) : Twins (c.step p).1 (c'.step p).1 ∧
      (c'.step p).2 = (c.step p).2 ∧
      (∃ out, (c.step p).1.stdout = c.stdout ++ out ∧ (c'.step p).1.stdout = c'.stdout ++ out) ∧
      ∃ out, (c.step p).1.stderr = c.stderr ++ out ∧ (c'.step p).1.stderr = c'.stderr ++ out := by
  obtain ⟨hran, hresult⟩ := h.executeStep p hp hwithin hwithin'
  have hpc : c'.regs.pc = c.regs.pc := h.regs.pc
  have hlr : (c'.readGpr 30).2 = (c.readGpr 30).2 := (h.regs.readGpr 30 true).2
  have hended := (hran.watchFrameRecords p c.regs.pc (c.readGpr 30).2).noteClobberedReads p
    c.regs.pc (c.readGpr 30).2
  have hunstepped := h.unstepped_step p hwithin hwithin'
  rw [step_eq, step_eq, hpc, hlr] at hunstepped ⊢
  obtain ⟨m, ring, heq, -⟩ := closeStepFrame_eq (((c.prepared.executeStep p).1.watchFrameRecords p
    c.regs.pc (c.readGpr 30).2).noteClobberedReads p c.regs.pc (c.readGpr 30).2)
  obtain ⟨m', ring', heq', -⟩ := closeStepFrame_eq (((c'.prepared.executeStep p).1.watchFrameRecords
    p c.regs.pc (c.readGpr 30).2).noteClobberedReads p c.regs.pc (c.readGpr 30).2)
  refine ⟨of_paired hended hunstepped, hresult, ?_, ?_⟩
  · rw [heq, heq']
    exact hended.stdout
  · rw [heq, heq']
    exact hended.stderr

end Twins

end Cpu

end Playground
