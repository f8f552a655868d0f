/-
Step over and step out.  A run toward a call depth stops at the first state that meets
its goal, or that a return to no caller just led to, however the run is split into calls.
-/
import Playground.Machine.CallNesting
import Playground.Machine.Undoable

namespace Playground

namespace CallStack

variable {s : CallStack} {target : Word}

/-- None of the calls the unwinding search looks through returns to `target`. -/
def NoCaller (s : CallStack) (target : Word) : Prop :=
  s.uncounted = 0 ∧ ∀ a ∈ s.acts.reverse.take unwindSearch, a.retAddr ≠ target

theorem badReturn_mark (s : CallStack) (record : Word) (flags : BitVec 8) (lastRet : Word)
    (log : Option FrameUndo) : (s.mark record flags lastRet log).1.badReturn = s.badReturn := by
  unfold mark
  simp only
  split <;> rfl

theorem badReturn_settleCaller (s : CallStack) (pc sp fp : Word) (mem : Memory)
    (log : Option FrameUndo) :
    (s.settleCaller pc sp fp mem log).1.badReturn = s.badReturn := by
  unfold settleCaller
  split
  · simp only
    split
    · exact badReturn_mark s _ _ _ log
    · rfl
  · rfl

theorem badReturn_push (s : CallStack) (a : Activation) (x0 : Word) (log : Option FrameUndo) :
    (s.push a x0 log).1.badReturn = s.badReturn := by
  unfold push onTree
  simp only
  split <;> rfl

theorem badReturn_onCall (s : CallStack) (pc target : Word) (intoProgram : Bool)
    (regs : Fin 32 → Word) (mem : Memory) (log : Option FrameUndo) :
    (s.onCall pc target intoProgram regs mem log).1.badReturn = s.badReturn := by
  have hsettled := badReturn_settleCaller s pc (regs 31) (regs 29) mem log
  unfold onCall
  simp only
  cases intoProgram with
  | true => exact (badReturn_push _ _ _ _).trans hsettled
  | false => exact hsettled

theorem badReturn_onLrStore (s : CallStack) (log : Option FrameUndo) :
    (s.onLrStore log).1.badReturn = s.badReturn := by
  unfold onLrStore
  split
  · split
    · exact badReturn_mark s _ _ _ log
    · rfl
  · rfl

theorem badReturn_watchWrites (s : CallStack) (writes : List (Word × Nat)) (step : Nat)
    (mem : Memory) (writer : Word × Word) (log : Option FrameUndo) :
    (s.watchWrites writes step mem writer log).1.badReturn = s.badReturn := by
  unfold watchWrites
  split
  · rfl
  · simp only
    split
    · rfl
    · split <;> rfl

theorem step_onReturn (h : s.NoCaller target) (pc : Word) (step : Nat) (regs : Fin 32 → Word)
    (x0Width : Nat) (log : Option FrameUndo) :
    (s.onReturn pc target step regs x0Width log).1.1.badReturn.step = step := by
  obtain ⟨hcounted, hnone⟩ := h
  unfold onReturn
  rw [if_neg (by omega)]
  split
  · next top rest hacts =>
      rw [hacts] at hnone
      have hsearch : ((top :: rest).take unwindSearch).findIdx?
          (fun a => decide (a.retAddr = target)) = none := by
        rw [List.findIdx?_eq_none_iff]
        exact fun a ha => decide_eq_false (hnone a ha)
      rw [if_neg (hnone top (by simp [unwindSearch])), hacts, hsearch]
      rfl
  · rfl

/-- A return to a caller leaves the stray one before it on record. -/
theorem badReturn_onReturn (h : ¬ s.NoCaller target) (pc : Word) (step : Nat)
    (regs : Fin 32 → Word) (x0Width : Nat) (log : Option FrameUndo) :
    (s.onReturn pc target step regs x0Width log).1.1.badReturn = s.badReturn := by
  unfold onReturn
  split
  · rfl
  · next hcounted =>
      split
      · next top rest hacts =>
          split
          · exact (acts_unwind s 1 _ _ log).2.2
          · split
            · exact (acts_unwind s _ _ _ log).2.2
            · next hsearch =>
                rw [List.findIdx?_eq_none_iff] at hsearch
                exact absurd ⟨by omega, fun a ha => of_decide_eq_false (hsearch a ha)⟩ h
      · next hacts =>
          exact absurd ⟨by omega, by simp [hacts]⟩ h

end CallStack

namespace Cpu

variable (p : Platform)

def SameReturns (c c' : Cpu) : Prop := c'.frames.badReturn = c.frames.badReturn

namespace SameReturns

variable {c c' c'' : Cpu}

theorem trans (first : SameReturns c c') (second : SameReturns c' c'') : SameReturns c c'' :=
  Eq.trans second first

theorem noteRead (c : Cpu) (readBy : BitVec 32) (readPc : Word) (read : BitVec 64)
    (code : Nat) : SameReturns c (Cpu.noteRead readBy readPc read c code) := by
  unfold Cpu.noteRead
  split
  · simp only
    split <;> rfl
  · rfl

theorem dropPassiveReads (c : Cpu) (pc : Word) (read : BitVec 64) :
    SameReturns c (c.dropPassiveReads p pc read).1 := by
  unfold Cpu.dropPassiveReads
  split
  · rfl
  split
  · rfl
  split
  · rfl
  · split <;> rfl
  · rfl

theorem noteClobberedReads (c : Cpu) (pc lr : Word) :
    SameReturns c (c.noteClobberedReads p pc lr) := by
  have hfold : ∀ (codes : List Nat) (readBy : BitVec 32) (readPc : Word) (read : BitVec 64)
      (d : Cpu), SameReturns c d →
        SameReturns c (codes.foldl (Cpu.noteRead readBy readPc read) d) := by
    intro codes readBy readPc read
    induction codes with
    | nil => exact fun d hd => hd
    | cons code codes ih => exact fun d hd => ih _ (hd.trans (noteRead d readBy readPc read code))
  unfold Cpu.noteClobberedReads
  simp only
  split
  · rfl
  · apply hfold
    split
    · exact dropPassiveReads p _ pc _
    · rfl

theorem closeStepFrame (c : Cpu) : SameReturns c c.closeStepFrame := by
  unfold Cpu.closeStepFrame
  split <;> rfl

theorem watchFrameRecords (c : Cpu) (pc lr : Word) :
    SameReturns c (c.watchFrameRecords p pc lr) := by
  unfold Cpu.watchFrameRecords
  simp only
  split
  · rfl
  · exact CallStack.badReturn_watchWrites _ _ _ _ _ _

theorem clobberAfterCall (c : Cpu) (stubPc : Word) :
    SameReturns c (c.clobberAfterCall p stubPc) :=
  noteClobberedReads p _ stubPc _

theorem keepCard (c : Cpu) (kind : Nat) (outcome : Except EmuError HostOutcome) :
    SameReturns c (c.keepCard kind outcome) := by
  have hkeep : ∀ failed, SameReturns c (c.keepCall kind failed) := by
    intro failed
    unfold keepCall
    simp only
    split <;> rfl
  unfold Cpu.keepCard
  split
  · rfl
  · split
    · exact hkeep false
    · rfl
  · split
    · exact hkeep true
    · rfl

theorem applyStubOutcome (c : Cpu) (pc : Word) (outcome : HostOutcome) :
    SameReturns c (c.applyStubOutcome p pc outcome) := by
  cases outcome with
  | «continue» => exact clobberAfterCall p c pc
  | needInput => rfl
  | sleep ns => exact clobberAfterCall p (c.applySleep ns) pc
  | exited code => rfl
  | call target =>
      simp only [Cpu.applyStubOutcome]
      split
      · exact CallStack.badReturn_push _ _ _ _
      · rfl

theorem dispatchHostStub (c : Cpu) (pc : Word) (fn : HostFn) :
    SameReturns c (c.dispatchHostStub p pc fn).1 := by
  have hran : SameReturns c ((c.enterStub pc).runHost fn (decide (cardKind p pc ≠ 0))).1 := rfl
  have hcard := hran.trans (keepCard _ (cardKind p pc)
    ((c.enterStub pc).runHost fn (decide (cardKind p pc ≠ 0))).2)
  unfold Cpu.dispatchHostStub
  simp only
  split
  · exact hcard
  · exact hcard.trans (applyStubOutcome p _ pc _)

theorem libcReadFault (c : Cpu) (pc address : Word) :
    SameReturns c (c.libcReadFault p pc address).1 := by
  unfold Cpu.libcReadFault
  split
  · rfl
  · simp only
    split <;> rfl

theorem stubStep (c : Cpu) (pc : Word) (fn : HostFn) :
    SameReturns c (c.stubStep p pc fn).1 := by
  unfold Cpu.stubStep
  simp only
  split
  · rfl
  · have hdone := dispatchHostStub p c pc fn
    split
    · exact hdone
    · split
      · exact hdone
      · exact hdone
      · exact hdone.trans (libcReadFault p _ pc _)
      · exact hdone

theorem dispatchSyscall (c : Cpu) (number : Nat) :
    SameReturns c (c.dispatchSyscall p number).1 := by
  unfold Cpu.dispatchSyscall
  simp only
  split <;> rfl

theorem trapStep (c : Cpu) (pc : Word) (result : ExecResult) :
    SameReturns c (c.trapStep p pc result).1 := by
  unfold Cpu.trapStep
  split
  · simp only
    split
    · rfl
    · have hdone : SameReturns c ((c.readGpr 8).1.dispatchSyscall p (c.readGpr 8).2.toNat).1 :=
        dispatchSyscall p (c.readGpr 8).1 _
      unfold syscallStep
      simp only
      split
      · exact hdone
      · split
        · exact hdone
        · exact hdone
        · split <;> exact hdone
  · rfl

theorem classifyOutcome (c : Cpu) : SameReturns c c.classifyOutcome.1 := by
  unfold Cpu.classifyOutcome
  split
  · rfl
  · split
    · rfl
    · split
      · rfl
      · split <;> rfl

end SameReturns

/-- The step from `c` executes a return, to `target`. -/
def ReturnsTo (c : Cpu) (target : Word) : Prop :=
  c.Executes ∧ p.host.entryAt c.regs.pc = none ∧ c.textEnd ≠ some c.regs.pc ∧
    ∃ word instr machine result, c.mem.readU32 c.regs.pc = .ok word ∧
      p.decode word = .ok instr ∧ p.callKind instr = .ret ∧
      (p.execute instr c.opened.machine).run c.opened.machine = (machine, .ok result) ∧
      target = if result = .advance then c.regs.pc + 4 else machine.regs.pc

/-- The step from `c` executes a return that goes to no caller. -/
def Strays (c : Cpu) : Prop := ∃ target, c.ReturnsTo p target ∧ c.frames.NoCaller target

/-- The stray return on record is one of the steps taken. -/
def Stamped (c : Cpu) : Prop := c.frames.badReturn.step ≤ c.stepsTaken

variable {p}

theorem returns_trackCallOrReturn (c : Cpu) (pc : Word) (kind : CallKind) :
    (kind = .ret ∧ c.frames.NoCaller c.regs.pc ∧
      (c.trackCallOrReturn pc kind).frames.badReturn.step = c.stepsTaken) ∨
    (¬ (kind = .ret ∧ c.frames.NoCaller c.regs.pc) ∧
      SameReturns c (c.trackCallOrReturn pc kind)) := by
  cases kind with
  | call => exact .inr ⟨by simp, CallStack.badReturn_onCall _ _ _ _ _ _ _⟩
  | lrStore => exact .inr ⟨by simp, CallStack.badReturn_onLrStore _ _⟩
  | other => exact .inr ⟨by simp, rfl⟩
  | ret =>
      have hframes : (c.trackCallOrReturn pc .ret).frames =
          (c.frames.onReturn pc c.regs.pc c.stepsTaken c.regs.snapshot (c.regs.writeWidth 0)
            (c.snapshots.newest.map StepFrame.frames)).1.1 := by
        simp only [trackCallOrReturn]
        split <;> rfl
      by_cases hstray : c.frames.NoCaller c.regs.pc
      · refine .inl ⟨rfl, hstray, ?_⟩
        rw [hframes]
        exact CallStack.step_onReturn hstray _ _ _ _ _
      · refine .inr ⟨fun h => hstray h.2, ?_⟩
        unfold SameReturns
        rw [hframes]
        exact CallStack.badReturn_onReturn hstray _ _ _ _ _

/-- Only a return to no caller goes on record, and with the step that made it. -/
theorem returns_finishInstruction (c : Cpu) (pc : Word) (kind : CallKind)
    (result : ExecResult) {target : Word}
    (htarget : target = if result = .advance then pc + 4 else c.regs.pc) :
    (kind = .ret ∧ c.frames.NoCaller target ∧
      (c.finishInstruction p pc kind result).1.frames.badReturn.step = c.stepsTaken) ∨
    (¬ (kind = .ret ∧ c.frames.NoCaller target) ∧
      SameReturns c (c.finishInstruction p pc kind result).1) := by
  have hadvanced : ∃ c₁, (if result = .advance then c.setRegs (c.regs.writePc (pc + 4)) else c) =
      c₁ ∧ c₁.frames = c.frames ∧ c₁.stepsTaken = c.stepsTaken ∧ c₁.regs.pc = target := by
    rw [htarget]
    split
    · exact ⟨_, rfl, rfl, rfl, rfl⟩
    · exact ⟨_, rfl, rfl, rfl, rfl⟩
  obtain ⟨c₁, heq, hframes, htaken, hpc⟩ := hadvanced
  have htracked := returns_trackCallOrReturn c₁ pc kind
  have htail : SameReturns (c₁.trackCallOrReturn pc kind)
      (c.finishInstruction p pc kind result).1 := by
    unfold finishInstruction
    simp only [heq]
    have hhalted : SameReturns (c₁.trackCallOrReturn pc kind)
        (if result = .halted then { c₁.trackCallOrReturn pc kind with halted := true }
          else c₁.trackCallOrReturn pc kind) := by
      split <;> rfl
    have htrapped := hhalted.trans (SameReturns.trapStep p _ pc result)
    split
    · next c₂ result' hvalue =>
        rw [hvalue] at htrapped
        exact htrapped
    · next c₂ hvalue =>
        rw [hvalue] at htrapped
        exact htrapped.trans (SameReturns.classifyOutcome c₂)
  unfold SameReturns at htracked htail ⊢
  rwa [htail, ← hframes, ← htaken, ← hpc]

theorem opened_frames (c : Cpu) : c.opened.frames = c.frames := by rw [opened_side]

/-- What an instruction at the pc of `c`, decoded from memory and executed, returns to. -/
theorem returns_instructionStep {c : Cpu} (hexec : c.Executes)
    (hstub : p.host.entryAt c.regs.pc = none) :
    (c.Strays p ∧ (c.opened.counted.instructionStep p c.regs.pc).1.frames.badReturn.step =
      c.stepsTaken + 1) ∨
    (¬ c.Strays p ∧ SameReturns c (c.opened.counted.instructionStep p c.regs.pc).1) := by
  have hframes := opened_frames c
  have htaken : c.opened.stepsTaken = c.stepsTaken := by rw [opened_side]
  have htext : c.opened.textEnd = c.textEnd := by rw [opened_side]
  have hread : c.opened.mem.readU32 c.regs.pc = c.mem.readU32 c.regs.pc := by
    unfold opened captureStepSnapshot
    split <;> rfl
  have hsame : SameReturns c c.opened.counted := congrArg CallStack.badReturn hframes
  unfold instructionStep
  split
  · next hend =>
      refine .inr ⟨?_, hsame⟩
      rintro ⟨target, ⟨-, -, hnot, -⟩, -⟩
      exact hnot (htext.symm.trans hend)
  · next hend =>
      have hpc : ∃ c₁, (if c.opened.counted.inProgram c.regs.pc then
          { c.opened.counted with lastProgramPc := c.regs.pc } else c.opened.counted) = c₁ ∧
          c₁.frames = c.frames ∧ c₁.stepsTaken = c.stepsTaken + 1 ∧
          c₁.machine = c.opened.machine := by
        split
        · exact ⟨_, rfl, hframes, congrArg (· + 1) htaken, rfl⟩
        · exact ⟨_, rfl, hframes, congrArg (· + 1) htaken, rfl⟩
      obtain ⟨c₁, heq, hframes₁, htaken₁, hmachine₁⟩ := hpc
      have hread₁ : c₁.mem.readU32 c.regs.pc = c.mem.readU32 c.regs.pc := by
        rw [← hread]
        exact congrArg (fun m => Memory.readU32 m.mem c.regs.pc) hmachine₁
      have hsame₁ : SameReturns c c₁ := congrArg CallStack.badReturn hframes₁
      simp only [heq, hread₁]
      split
      · next e hfault =>
          refine .inr ⟨?_, hsame₁⟩
          rintro ⟨target, ⟨-, -, -, word, instr, machine, result, hword, -⟩, -⟩
          rw [hfault] at hword
          cases hword
      · next word hword =>
          split
          · next e hbad =>
              refine .inr ⟨?_, hsame₁⟩
              rintro ⟨target, ⟨-, -, -, word', instr, machine, result, hword', hinstr, -⟩, -⟩
              obtain rfl : word = word' := Except.ok.inj (hword.symm.trans hword')
              rw [hbad] at hinstr
              cases hinstr
          · next instr hinstr =>
              obtain ⟨machine, outcome, hrun⟩ : ∃ machine outcome,
                  (p.execute instr c.opened.machine).run c.opened.machine =
                    (machine, outcome) := ⟨_, _, rfl⟩
              have hexecuted : c₁.executeInstruction p instr =
                  ({ c₁ with machine := machine }, outcome) := by
                unfold executeInstruction
                rw [hmachine₁, hrun]
              have hfails : ∀ e, outcome = .error e → ¬ c.Strays p := by
                rintro e rfl ⟨target, ⟨-, -, -, word', instr', machine', result, hword', hinstr',
                  -, hrun', -⟩, -⟩
                obtain rfl : word = word' := Except.ok.inj (hword.symm.trans hword')
                obtain rfl : instr = instr' := Except.ok.inj (hinstr.symm.trans hinstr')
                rw [hrun] at hrun'
                cases hrun'
              simp only [hexecuted]
              split
              · next e => exact .inr ⟨hfails _ rfl, hsame₁⟩
              · next e _ => exact .inr ⟨hfails _ rfl, hsame₁⟩
              · next result =>
                  have hfinish := returns_finishInstruction (p := p) { c₁ with machine := machine }
                    c.regs.pc (p.callKind instr) result rfl
                  have hcaller : ∀ target, c₁.frames.NoCaller target ↔
                      c.frames.NoCaller target := fun target => by rw [hframes₁]
                  rcases hfinish with ⟨hret, hstray, hstep⟩ | ⟨hkeeps, hsame⟩
                  · exact .inl ⟨⟨_, ⟨hexec, hstub, fun h => hend (htext.trans h), word, instr,
                      machine, result, hword, hinstr, hret, hrun, rfl⟩, (hcaller _).mp hstray⟩,
                      hstep.trans htaken₁⟩
                  · refine .inr ⟨?_, hsame₁.trans hsame⟩
                    rintro ⟨target, ⟨-, -, -, word', instr', machine', result', hword', hinstr',
                      hret, hrun', rfl⟩, hstray⟩
                    obtain rfl : word = word' := Except.ok.inj (hword.symm.trans hword')
                    obtain rfl : instr = instr' := Except.ok.inj (hinstr.symm.trans hinstr')
                    rw [hrun] at hrun'
                    obtain ⟨rfl, hsame'⟩ := Prod.mk.inj hrun'
                    obtain rfl := Except.ok.inj hsame'
                    exact hkeeps ⟨hret, (hcaller _).mpr hstray⟩

/-- A step puts a return on record exactly when it executes one that goes to no caller. -/
theorem returns_step (c : Cpu) :
    (c.Strays p ∧ (c.step p).1.frames.badReturn.step = c.stepsTaken + 1) ∨
    (¬ c.Strays p ∧ SameReturns c (c.step p).1) := by
  have htail : SameReturns (c.prepared.executeStep p).1 (c.step p).1 := by
    rw [step_eq]
    exact (SameReturns.watchFrameRecords p _ _ _).trans
      ((SameReturns.noteClobberedReads p _ _ _).trans (SameReturns.closeStepFrame _))
  by_cases hexec : c.Executes
  · rw [executeStep_of_executes p hexec] at htail
    unfold countedStep at htail
    cases hstub : p.host.entryAt c.regs.pc with
    | some entry =>
        simp only [hstub] at htail
        have hsame : SameReturns c c.opened.counted :=
          congrArg CallStack.badReturn (opened_frames c)
        refine .inr ⟨?_, (hsame.trans (SameReturns.stubStep p _ _ _)).trans htail⟩
        rintro ⟨target, ⟨-, hnone, -⟩, -⟩
        rw [hstub] at hnone
        cases hnone
    | none =>
        simp only [hstub] at htail
        rcases returns_instructionStep hexec hstub with ⟨hstrays, hstep⟩ | ⟨hkeeps, hsame⟩
        · exact .inl ⟨hstrays, (congrArg BadReturn.step htail).trans hstep⟩
        · exact .inr ⟨hkeeps, hsame.trans htail⟩
  · refine .inr ⟨fun ⟨_, hreturns, _⟩ => hexec hreturns.1, ?_⟩
    have hrefused := executeStep_refused p (c := c.prepared) fun ⟨hrun, hopen, hbudget, hstack⟩ =>
      hexec ⟨hrun, hopen, hbudget, by rwa [prepared_regs] at hstack⟩
    have hsame : SameReturns c (c.prepared.executeStep p).1 :=
      congrArg CallStack.badReturn hrefused.2.2.1
    exact hsame.trans htail

theorem stepsTaken_le_step (c : Cpu) : c.stepsTaken ≤ (c.step p).1.stepsTaken := by
  by_cases hexec : c.Executes
  · obtain ⟨r, b, hdone⟩ := executed_step p hexec
    rw [hdone.stepsTaken]
    exact Nat.le_succ _
  · exact (silent_step_refused p hexec).stepsTaken.ge

theorem Stamped.step {c : Cpu} (h : c.Stamped) : (c.step p).1.Stamped := by
  have hle := stepsTaken_le_step (p := p) c
  rcases returns_step (p := p) c with ⟨⟨target, hreturns, -⟩, hstep⟩ | ⟨-, hsame⟩
  · obtain ⟨r, b, hdone⟩ := executed_step p hreturns.1
    unfold Stamped
    rw [hstep, hdone.stepsTaken]
  · unfold Stamped at h ⊢
    rw [hsame]
    exact h.trans hle

theorem Stamped.strays_iff {c : Cpu} (h : c.Stamped) :
    (c.step p).1.frames.badReturn.step ≠ c.frames.badReturn.step ↔ c.Strays p := by
  rcases returns_step (p := p) c with ⟨hstrays, hstep⟩ | ⟨hkeeps, hsame⟩
  · refine iff_of_true ?_ hstrays
    rw [hstep]
    exact (Nat.lt_succ_of_le h).ne'
  · refine iff_of_false ?_ hkeeps
    rw [hsame]
    exact fun hne => hne rfl

end Cpu

/-- No bare sections are loaded over a recorded history, and images load whole. -/
def LoadsWhole (p : Platform) (s : Session) (e : Event) : Prop :=
  KeepsSections s e ∧ ∀ image args, e = .loadLinkedImage image args →
    (s.cpu.loadLinkedImageWithArgs p image args).2 = .ok ()

theorem Watched.keepsSections {p : Platform} {s : Session} {l : Ledger}
    (h : Watched p (LoadsWhole p) s l) : Watched p KeepsSections s l := by
  induction h with
  | start h => exact .start h
  | event _ e hallowed hhandle ih => exact .event ih e hallowed.1 hhandle

/-- The stray return a state has on record is one of the steps it took. -/
def CpuState.Stamped (s : CpuState) : Prop := s.frames.badReturn.step ≤ s.stepsTaken

/-- The stray returns a session has on record. -/
structure Session.Stamped (s : Session) (l : Ledger) : Prop where
  cpu : s.cpu.Stamped
  saves : ∀ name snap, s.named name = some snap → snap.frames.badReturn.step ≤ snap.stepsTaken
  pending : ∀ prev ∈ l.pending, prev.Stamped

namespace Session.Stamped

variable {p : Platform} {s s' : Session} {l : Ledger}

theorem load {c : Cpu} {l' : Ledger} (h : s.Stamped l) (hcpu : c.Stamped)
    (hpending : l'.pending = []) :
    Stamped { s with cpu := c } l' :=
  ⟨hcpu, h.saves, by simp [hpending]⟩

theorem event (h : s.Stamped l) (hundoable : Undoable s l) {e : Event}
    (hallowed : LoadsWhole p s e) (hhandle : s.handle p e = some s') :
    s'.Stamped (l.after p s e) := by
  have hstep : ∀ (c : Cpu) (l : Ledger), c.Stamped ∧ (∀ prev ∈ l.pending, prev.Stamped) →
      (c.stepped p).Stamped ∧ ∀ prev ∈ (l.afterStep p c).pending, prev.Stamped := by
    rintro c l ⟨hcpu, hpending⟩
    refine ⟨hcpu.step, fun prev hprev => ?_⟩
    unfold Ledger.afterStep at hprev
    split at hprev
    · rcases List.mem_cons.mp hprev with rfl | hmem
      · exact hcpu
      · exact hpending prev hmem
    · exact hpending prev hprev
  cases e with
  | step =>
      obtain rfl := Option.some.inj hhandle
      obtain ⟨hcpu, hpending⟩ := hstep s.cpu l ⟨h.cpu, h.pending⟩
      exact ⟨hcpu, h.saves, hpending⟩
  | runUntil maxSteps goal =>
      obtain rfl := Option.some.inj hhandle
      obtain ⟨hcpu, hpending⟩ := Ledger.watch_runUntil
        (motive := fun c l => c.Stamped ∧ ∀ prev ∈ l.pending, prev.Stamped)
        ⟨h.cpu, h.pending⟩ hstep maxSteps goal
      exact ⟨hcpu, h.saves, hpending⟩
  | stepBack =>
      obtain rfl := Option.some.inj hhandle
      refine Ledger.after_stepBack (motive := fun c => Session.Stamped { s with cpu := c }) h ?_
      intro frame hnewest
      obtain ⟨prev, rest, hpending, hstate, -⟩ := Cpu.stepBack_linked hnewest hundoable.linked
      have hall := h.pending
      rw [hpending] at hall
      have hback : s.cpu.stepBack.1.state.Stamped := by
        rw [hstate]
        exact hall prev (by simp)
      refine ⟨hback, h.saves, ?_⟩
      simp only [hpending, List.tail_cons]
      exact fun other hother => hall other (by simp [hother])
  | setSnapshotsPaused paused =>
      obtain rfl := Option.some.inj hhandle
      exact ⟨h.cpu, h.saves, h.pending⟩
  | update u =>
      obtain rfl := Option.some.inj hhandle
      obtain ⟨hbody, htaken, -⟩ := Cpu.update_body s.cpu u
      refine ⟨?_, h.saves, h.pending⟩
      have hcpu := h.cpu
      unfold Cpu.Stamped at hcpu ⊢
      have hframes : (u.apply s.cpu).frames = s.cpu.frames := hbody.frames
      rwa [hframes, htaken]
  | drain d =>
      obtain rfl := Option.some.inj hhandle
      obtain ⟨hbody, htaken, -⟩ := Cpu.drain_body s.cpu d
      refine ⟨?_, h.saves, h.pending⟩
      have hcpu := h.cpu
      unfold Cpu.Stamped at hcpu ⊢
      have hframes : (d.apply s.cpu).frames = s.cpu.frames := hbody.frames
      rwa [hframes, htaken]
  | saveState name =>
      obtain rfl := Option.some.inj hhandle
      refine ⟨h.cpu, Session.named_update h.saves ?_, h.pending⟩
      rintro snap ⟨⟩
      exact h.cpu
  | loadState name =>
      exact Ledger.after_loadState hhandle h fun snap hnamed =>
        h.load (h.saves name snap hnamed) rfl
  | deleteState name =>
      obtain rfl := Option.some.inj hhandle
      exact ⟨h.cpu, Session.named_update h.saves (by simp), h.pending⟩
  | reset =>
      simp only [Session.handle, Option.map_eq_some_iff] at hhandle
      obtain ⟨c', hreset, rfl⟩ := hhandle
      refine h.load ?_ rfl
      simp only [Cpu.reset, Option.bind_eq_bind, Option.bind_eq_some_iff, Option.pure_def,
        Option.some.injEq] at hreset
      obtain ⟨mem, -, rfl⟩ := hreset
      exact Nat.zero_le _
  | loadProgram code =>
      simp only [Session.handle, Option.map_eq_some_iff] at hhandle
      obtain ⟨c', hload, rfl⟩ := hhandle
      refine h.load ?_ rfl
      unfold Cpu.loadProgram at hload
      split at hload
      · cases hload
      · obtain rfl := Option.some.inj hload
        exact Nat.zero_le _
  | loadLinkedImage image args =>
      obtain rfl := Option.some.inj hhandle
      refine h.load ?_ rfl
      have hok := hallowed.2 image args rfl
      unfold Cpu.loadLinkedImageWithArgs at hok ⊢
      simp only at hok ⊢
      split at hok
      · cases hok
      · split at hok
        · cases hok
        · exact Nat.zero_le _
  | loadSections program =>
      obtain rfl := Option.some.inj hhandle
      refine ⟨?_, h.saves, h.pending⟩
      have hcpu := h.cpu
      unfold Cpu.loadSections
      split <;> exact hcpu
  | setBreakpoint addr =>
      obtain rfl := Option.some.inj hhandle
      exact ⟨h.cpu, h.saves, h.pending⟩
  | clearBreakpoint addr =>
      obtain rfl := Option.some.inj hhandle
      exact ⟨h.cpu, h.saves, h.pending⟩
  | clearAllBreakpoints =>
      obtain rfl := Option.some.inj hhandle
      exact ⟨h.cpu, h.saves, h.pending⟩

end Session.Stamped

theorem stamped_of_watched {p : Platform} {s : Session} {l : Ledger}
    (h : Watched p (LoadsWhole p) s l) : s.Stamped l := by
  induction h with
  | start _ =>
      exact ⟨Nat.zero_le _, fun _ _ hsnap => (by cases hsnap), fun _ hprev => (by cases hprev)⟩
  | event hwatched e hallowed hhandle ih =>
      exact ih.event (undoable_of_watched hwatched.keepsSections) hallowed hhandle

def Until.toDepth (depth : Nat) : Until := ⟨some depth, none⟩

def RunStop.flags : RunStop → Bool × Bool
  | .goal reached badReturn => (reached, badReturn)
  | _ => (false, false)

namespace Cpu

variable (p : Platform) (breakpoints : Finset Word) (depth : Nat)

/-- The step from `c` comes back to the program's own code at `depth` or above it, other
than by a return to no caller. -/
def Reaches (c : Cpu) : Prop :=
  c.Awake ∧ ¬ c.Strays p ∧ (c.stepped p).halted = false ∧
    (c.stepped p).frames.depth ≤ depth ∧ (c.stepped p).inProgram (c.stepped p).regs.pc = true

/-- The step from `c` makes a return to no caller, and the machine runs on. -/
def GoesAstray (c : Cpu) : Prop := c.Strays p ∧ (c.stepped p).halted = false

/-- The calls of a run toward `depth` split by `budgets`: where each began and what it
returned.  A host makes no call after one that met the goal or reported a stray return. -/
def callsToward : List Nat → Cpu → List (Cpu × RunResult)
  | [], _ => []
  | maxSteps :: budgets, c =>
      let (c', result) := c.runUntil p breakpoints (Until.toDepth depth) maxSteps
      if result.reached || result.badReturn then [(c, result)]
      else (c, result) :: callsToward budgets c'

/-- What one call did: `k` steps from `c`, of which only the last can have met the goal
or strayed, and the flags say whether it did. -/
structure Toward (c : Cpu) (k : Nat) (reached badReturn : Bool) : Prop where
  reaches : ∀ i < k, ((stepped p)^[i] c).Reaches p depth ↔ i + 1 = k ∧ reached = true
  astray : ∀ i < k, ((stepped p)^[i] c).GoesAstray p ↔ i + 1 = k ∧ badReturn = true
  flagged : reached = true ∨ badReturn = true → 0 < k

variable {p breakpoints depth}

theorem goalStop_spec (depth : Nat) {c : Cpu} (hstamp : c.Stamped) (hawake : c.Awake)
    (hrun : (c.stepped p).halted = false) :
    (((c.stepped p).goalStop (Until.toDepth depth) c.frames.badReturn.step).1 = true ↔
      c.Reaches p depth) ∧
    (((c.stepped p).goalStop (Until.toDepth depth) c.frames.badReturn.step).2 = true ↔
      c.GoesAstray p) := by
  have hstrays := hstamp.strays_iff (p := p)
  unfold goalStop Reaches GoesAstray
  simp only [Until.toDepth, hrun, hawake, true_and, and_true, reduceCtorEq, decide_false,
    Bool.false_or, Bool.and_eq_true, Bool.not_eq_true', decide_eq_false_iff_not, decide_eq_true_eq]
  exact ⟨and_congr_left' (not_congr hstrays), hstrays⟩

theorem Toward.none (c : Cpu) : Toward p depth c 0 false false :=
  ⟨by simp, by simp, by simp⟩

theorem Toward.one {c : Cpu} {reached badReturn : Bool}
    (hreached : reached = true ↔ c.Reaches p depth)
    (hastray : badReturn = true ↔ c.GoesAstray p) : Toward p depth c 1 reached badReturn := by
  refine ⟨fun i hi => ?_, fun i hi => ?_, fun _ => Nat.one_pos⟩
  · obtain rfl : i = 0 := by omega
    simp [hreached]
  · obtain rfl : i = 0 := by omega
    simp [hastray]

theorem Toward.cons {c : Cpu} {k : Nat} {reached badReturn : Bool}
    (hreaches : ¬ c.Reaches p depth) (hastray : ¬ c.GoesAstray p)
    (h : Toward p depth (c.stepped p) k reached badReturn) :
    Toward p depth c (k + 1) reached badReturn := by
  have hflagged := h.flagged
  refine ⟨fun i hi => ?_, fun i hi => ?_, fun _ => Nat.succ_pos k⟩
  · cases i with
    | zero =>
        refine iff_of_false hreaches ?_
        rintro ⟨hk, hflag⟩
        have := hflagged (.inl hflag)
        omega
    | succ i =>
        rw [Function.iterate_succ_apply, h.reaches i (by omega)]
        simp
  · cases i with
    | zero =>
        refine iff_of_false hastray ?_
        rintro ⟨hk, hflag⟩
        have := hflagged (.inr hflag)
        omega
    | succ i =>
        rw [Function.iterate_succ_apply, h.astray i (by omega)]
        simp

theorem runLoop_halted {c : Cpu} (h : c.halted = true) (goal : Until) (astray left steps : Nat) :
    c.runLoop p breakpoints goal astray left steps = (c, steps, .other) := by
  cases left with
  | zero => rfl
  | succ left => simp [runLoop, h]

theorem runLoop_toward (p : Platform) (breakpoints : Finset Word) (depth : Nat) {c : Cpu}
    (hstamp : c.Stamped) (left steps : Nat) : ∃ k stop,
    c.runLoop p breakpoints (Until.toDepth depth) c.frames.badReturn.step left steps =
      ((stepped p)^[k] c, steps + k, stop) ∧
    Toward p depth c k (RunStop.flags stop).1 (RunStop.flags stop).2 ∧
    (c.Awake → 0 < left → steps = 0 → 0 < k) := by
  induction left generalizing steps c with
  | zero => exact ⟨0, .other, rfl, .none c, by simp⟩
  | succ left ih =>
      unfold runLoop
      split
      · next hstall =>
          exact ⟨0, .other, rfl, .none c, fun hawake => absurd hstall (awake_iff.mp hawake)⟩
      split
      · next hbreak => exact ⟨0, .breakpoint, rfl, .none c, fun _ _ hsteps => by omega⟩
      · next hstall hbreak =>
          have hawake : c.Awake := awake_iff.mpr hstall
          have hgoal : (Until.toDepth depth).isGoal = true := rfl
          have hone : (stepped p)^[1] c = (c.step p).1 := rfl
          cases hhalted : (c.step p).1.halted with
          | true =>
              have hnone : Toward p depth c 1 false false := by
                refine .one ⟨by simp, fun h => ?_⟩ ⟨by simp, fun h => ?_⟩
                · exact absurd (hhalted.symm.trans h.2.2.1) (by simp)
                · exact absurd (hhalted.symm.trans h.2) (by simp)
              refine ⟨1, .other, ?_, hnone, fun _ _ _ => Nat.one_pos⟩
              simp only [hhalted, Bool.not_true, Bool.and_false, Bool.or_self, Bool.false_eq_true,
                ↓reduceIte, hone]
              split
              · rfl
              · exact runLoop_halted hhalted _ _ _ _
          | false =>
              obtain ⟨hreached, hastray⟩ := goalStop_spec depth hstamp hawake hhalted
              simp only [hgoal, hhalted, Bool.not_false, Bool.and_self, ↓reduceIte]
              change (((c.step p).1.goalStop (Until.toDepth depth) c.frames.badReturn.step).1 =
                true ↔ _) at hreached
              change (((c.step p).1.goalStop (Until.toDepth depth) c.frames.badReturn.step).2 =
                true ↔ _) at hastray
              generalize (c.step p).1.goalStop (Until.toDepth depth) c.frames.badReturn.step =
                flags at hreached hastray ⊢
              obtain ⟨reached, badReturn⟩ := flags
              simp only at hreached hastray ⊢
              split
              · exact ⟨1, .goal reached badReturn, rfl, .one hreached hastray,
                  fun _ _ _ => Nat.one_pos⟩
              · next hquiet =>
                  simp only [Bool.or_eq_true, not_or, Bool.not_eq_true] at hquiet
                  obtain ⟨rfl, rfl⟩ := hquiet
                  split
                  · exact ⟨1, .other, rfl, .one hreached hastray, fun _ _ _ => Nat.one_pos⟩
                  · have hkeeps : ¬ c.GoesAstray p := fun h => by simpa using hastray.mpr h
                    have hsame : (c.step p).1.frames.badReturn.step = c.frames.badReturn.step := by
                      by_contra hne
                      exact hkeeps ⟨hstamp.strays_iff.mp hne, hhalted⟩
                    obtain ⟨k, stop, hloop, htoward, -⟩ := ih hstamp.step (steps + 1)
                    rw [hsame] at hloop
                    refine ⟨k + 1, stop, ?_, .cons (fun h => by simpa using hreached.mpr h)
                      hkeeps htoward, fun _ _ _ => Nat.succ_pos k⟩
                    rw [hloop, Function.iterate_succ_apply, Nat.add_assoc, Nat.add_comm 1 k]
                    rfl

theorem runUntil_toward (p : Platform) (breakpoints : Finset Word) (depth : Nat) {c : Cpu}
    (hstamp : c.Stamped) (maxSteps : Nat) :
    Toward p depth c (c.runUntil p breakpoints (Until.toDepth depth) maxSteps).2.stepsExecuted
      (c.runUntil p breakpoints (Until.toDepth depth) maxSteps).2.reached
      (c.runUntil p breakpoints (Until.toDepth depth) maxSteps).2.badReturn ∧
    (c.Awake → 0 < maxSteps →
      0 < (c.runUntil p breakpoints (Until.toDepth depth) maxSteps).2.stepsExecuted) := by
  obtain ⟨k, stop, hloop, htoward, hmoves⟩ := runLoop_toward p breakpoints depth
    hstamp maxSteps 0
  unfold runUntil
  rw [hloop, Nat.zero_add]
  cases stop with
  | breakpoint => exact ⟨htoward, fun hawake hpos => hmoves hawake hpos rfl⟩
  | goal reached badReturn => exact ⟨htoward, fun hawake hpos => hmoves hawake hpos rfl⟩
  | other => exact ⟨htoward, fun hawake hpos => hmoves hawake hpos rfl⟩

/-- What a split run toward `depth` does: it passes no state it should stop at, and each
of its calls says whether it ended at one. -/
structure StopsToward (p : Platform) (depth : Nat) (c : Cpu)
    (calls : List (Cpu × RunResult)) : Prop where
  passes : ∀ i, i + 1 < stepsOf calls →
    ¬ ((stepped p)^[i] c).Reaches p depth ∧ ¬ ((stepped p)^[i] c).GoesAstray p
  began : ∀ before d result after, calls = before ++ (d, result) :: after →
    d = (stepped p)^[stepsOf before] c
  reached : ∀ before d result after, calls = before ++ (d, result) :: after →
    (result.reached = true ↔ ∃ i, stepsOf before + result.stepsExecuted = i + 1 ∧
      ((stepped p)^[i] c).Reaches p depth)
  badReturn : ∀ before d result after, calls = before ++ (d, result) :: after →
    (result.badReturn = true ↔ ∃ i, stepsOf before + result.stepsExecuted = i + 1 ∧
      ((stepped p)^[i] c).GoesAstray p)

theorem Stamped.iterate {c : Cpu} (h : c.Stamped) (k : Nat) : ((stepped p)^[k] c).Stamped := by
  induction k generalizing c with
  | zero => exact h
  | succ k ih => exact ih h.step

/-- A flag of the last of some steps is a property of the one step it is about. -/
theorem exists_index {P : Nat → Prop} {k : Nat} {flag : Bool}
    (h : ∀ i < k, P i ↔ i + 1 = k ∧ flag = true) (hflag : flag = true → 0 < k) :
    flag = true ↔ ∃ i, k = i + 1 ∧ P i := by
  constructor
  · intro hset
    obtain ⟨i, rfl⟩ := Nat.exists_eq_succ_of_ne_zero (hflag hset).ne'
    exact ⟨i, rfl, (h i (Nat.lt_succ_self i)).mpr ⟨rfl, hset⟩⟩
  · rintro ⟨i, rfl, hi⟩
    exact ((h i (Nat.lt_succ_self i)).mp hi).2

/-- The same about a later call: the steps before it were not the last. -/
theorem exists_index_shift {P : Nat → Prop} {k m : Nat} (hclear : ∀ i < k, ¬ P i) :
    (∃ i, m = i + 1 ∧ P (i + k)) ↔ ∃ i, k + m = i + 1 ∧ P i := by
  constructor
  · rintro ⟨i, rfl, hi⟩
    exact ⟨i + k, by omega, hi⟩
  · rintro ⟨i, hi, hP⟩
    have hle : k ≤ i := by
      by_contra hlt
      exact hclear i (by omega) hP
    obtain ⟨j, rfl⟩ := Nat.exists_eq_add_of_le' hle
    exact ⟨j, by omega, hP⟩

theorem callsToward_stops {c : Cpu} (hstamp : c.Stamped) (budgets : List Nat) :
    StopsToward p depth c (callsToward p breakpoints depth budgets c) := by
  induction budgets generalizing c with
  | nil =>
      refine ⟨fun i hi => ?_, ?_, ?_, ?_⟩
      · simp [callsToward, stepsOf] at hi
      all_goals
        intro before d result after h
        simp [callsToward] at h
  | cons maxSteps budgets ih =>
      obtain ⟨htoward, -⟩ := runUntil_toward p breakpoints depth hstamp maxSteps
      have hend := runUntil_iterate p breakpoints (Until.toDepth depth) maxSteps c
      simp only [callsToward]
      generalize c.runUntil p breakpoints (Until.toDepth depth) maxSteps = r at htoward hend ⊢
      obtain ⟨c', result⟩ := r
      simp only at htoward hend ⊢
      have hreached := exists_index htoward.reaches fun h => htoward.flagged (.inl h)
      have hastray := exists_index htoward.astray fun h => htoward.flagged (.inr h)
      split
      · next hflag =>
          refine ⟨fun i hi => ?_, ?_, ?_, ?_⟩
          · simp only [stepsOf, List.map_singleton, List.sum_singleton] at hi
            rw [htoward.reaches i (by omega), htoward.astray i (by omega)]
            omega
          all_goals
            intro before d result' after h
            obtain ⟨rfl, h⟩ : before = [] ∧ _ := by
              cases before with
              | nil => exact ⟨rfl, h⟩
              | cons call before => simp at h
            simp only [List.nil_append, List.cons.injEq, Prod.mk.injEq] at h
            obtain ⟨⟨rfl, rfl⟩, -⟩ := h
          · rfl
          · simpa [stepsOf] using hreached
          · simpa [stepsOf] using hastray
      · next hflag =>
          simp only [Bool.or_eq_true, not_or, Bool.not_eq_true] at hflag
          have hclear : ∀ i < result.stepsExecuted, ¬ ((stepped p)^[i] c).Reaches p depth ∧
              ¬ ((stepped p)^[i] c).GoesAstray p := by
            intro i hi
            rw [htoward.reaches i hi, htoward.astray i hi, hflag.1, hflag.2]
            simp
          have hnext := ih (c := c') (hend ▸ hstamp.iterate _)
          have hshift : ∀ i, (stepped p)^[i] c' = (stepped p)^[i + result.stepsExecuted] c := by
            intro i
            rw [hend, ← Function.iterate_add_apply]
          refine ⟨fun i hi => ?_, fun before d result' after h => ?_,
            fun before d result' after h => ?_, fun before d result' after h => ?_⟩
          · rw [stepsOf_cons] at hi
            simp only at hi
            by_cases hlt : i < result.stepsExecuted
            · exact hclear i hlt
            · obtain ⟨j, rfl⟩ := Nat.exists_eq_add_of_le' (Nat.le_of_not_lt hlt)
              rw [← hshift]
              exact hnext.passes j (by omega)
          · cases before with
            | nil =>
                simp only [List.nil_append, List.cons.injEq, Prod.mk.injEq] at h
                exact h.1.1.symm
            | cons call before =>
                simp only [List.cons_append, List.cons.injEq] at h
                obtain ⟨rfl, h⟩ := h
                rw [hnext.began before d result' after h, hshift, stepsOf_cons, Nat.add_comm]
          · cases before with
            | nil =>
                simp only [List.nil_append, List.cons.injEq, Prod.mk.injEq] at h
                obtain ⟨⟨rfl, rfl⟩, -⟩ := h
                simpa [stepsOf] using hreached
            | cons call before =>
                simp only [List.cons_append, List.cons.injEq] at h
                obtain ⟨rfl, h⟩ := h
                rw [hnext.reached before d result' after h, stepsOf_cons, Nat.add_assoc]
                simp only [hshift]
                exact exists_index_shift fun i hi => (hclear i hi).1
          · cases before with
            | nil =>
                simp only [List.nil_append, List.cons.injEq, Prod.mk.injEq] at h
                obtain ⟨⟨rfl, rfl⟩, -⟩ := h
                simpa [stepsOf] using hastray
            | cons call before =>
                simp only [List.cons_append, List.cons.injEq] at h
                obtain ⟨rfl, h⟩ := h
                rw [hnext.badReturn before d result' after h, stepsOf_cons, Nat.add_assoc]
                simp only [hshift]
                exact exists_index_shift fun i hi => (hclear i hi).2

theorem GoesAstray.awake {c : Cpu} (h : c.GoesAstray p) : c.Awake := by
  obtain ⟨⟨target, ⟨hexec, -⟩, -⟩, -⟩ := h
  exact ⟨hexec.running, hexec.unblocked⟩

/-- Enough budget gets a run to the first state it should stop at. -/
theorem stepsOf_callsToward {c : Cpu} (hstamp : c.Stamped) {budgets : List Nat} {n : Nat}
    (hstop : ((stepped p)^[n] c).Reaches p depth ∨ ((stepped p)^[n] c).GoesAstray p)
    (hfirst : ∀ i < n, ¬ ((stepped p)^[i] c).Reaches p depth ∧
      ¬ ((stepped p)^[i] c).GoesAstray p)
    (hbudget : n < (budgets.filter fun maxSteps => decide (0 < maxSteps)).length) :
    stepsOf (callsToward p breakpoints depth budgets c) = n + 1 := by
  induction budgets generalizing c n with
  | nil => simp at hbudget
  | cons maxSteps budgets ih =>
      obtain ⟨htoward, hmoves⟩ := runUntil_toward p breakpoints depth hstamp maxSteps
      have hend := runUntil_iterate p breakpoints (Until.toDepth depth) maxSteps c
      have hawake : c.Awake := awake_of_iterate p (Nat.zero_le n)
        (hstop.elim (fun h => h.1) (fun h => h.awake))
      have hpositive := hmoves hawake
      simp only [callsToward]
      generalize c.runUntil p breakpoints (Until.toDepth depth) maxSteps = r at *
      obtain ⟨c', result⟩ := r
      simp only at htoward hend hpositive ⊢
      have hlate : n < result.stepsExecuted →
          n + 1 = result.stepsExecuted ∧ (result.reached = true ∨ result.badReturn = true) := by
        intro hlt
        rw [htoward.reaches n hlt, htoward.astray n hlt] at hstop
        tauto
      split
      · next hflag =>
          simp only [Bool.or_eq_true] at hflag
          obtain ⟨k, hk⟩ := Nat.exists_eq_succ_of_ne_zero (htoward.flagged hflag).ne'
          have hlast : ((stepped p)^[k] c).Reaches p depth ∨ ((stepped p)^[k] c).GoesAstray p := by
            rw [htoward.reaches k (by omega), htoward.astray k (by omega)]
            exact hflag.imp (fun h => ⟨hk.symm, h⟩) (fun h => ⟨hk.symm, h⟩)
          have hnot : ¬ k < n := fun hlt => hlast.elim (hfirst k hlt).1 (hfirst k hlt).2
          have hle := hlate
          simp only [stepsOf, List.map_singleton, List.sum_singleton]
          omega
      · next hflag =>
          simp only [Bool.or_eq_true] at hflag
          have hle : result.stepsExecuted ≤ n := by
            by_contra hlt
            exact hflag (hlate (by omega)).2
          obtain ⟨m, rfl⟩ := Nat.exists_eq_add_of_le' hle
          have hshift : ∀ i, (stepped p)^[i] c' = (stepped p)^[i + result.stepsExecuted] c := by
            intro i
            rw [hend, ← Function.iterate_add_apply]
          rw [stepsOf_cons, ih (c := c') (n := m) (hend ▸ hstamp.iterate _)
            (by rwa [hshift]) (fun i hi => by rw [hshift]; exact hfirst _ (by omega))]
          · simp only
            omega
          · rw [List.filter_cons] at hbudget
            split at hbudget
            · next hpos =>
                have := hpositive (of_decide_eq_true hpos)
                simp only [List.length_cons] at hbudget
                omega
            · omega

end Cpu

/-- Toward any depth (its own for step over, one less for step out) and split in any way,
the run of a program stops at the first state, after a step, that is back in the program's
code at that depth or above and runs on, or that a return to no caller led to.  It says
which, and it says so nowhere else. -/
theorem callsToward_first {p : Platform} {s : Session} {l : Ledger}
    (h : Watched p (LoadsWhole p) s l) (depth : Nat) (budgets : List Nat) :
    Cpu.StopsToward p depth s.cpu (s.cpu.callsToward p s.breakpoints depth budgets) ∧
    ∀ n, ((Cpu.stepped p)^[n] s.cpu).Reaches p depth ∨
        ((Cpu.stepped p)^[n] s.cpu).GoesAstray p →
      (∀ i < n, ¬ ((Cpu.stepped p)^[i] s.cpu).Reaches p depth ∧
        ¬ ((Cpu.stepped p)^[i] s.cpu).GoesAstray p) →
      n < (budgets.filter fun maxSteps => decide (0 < maxSteps)).length →
      Cpu.stepsOf (s.cpu.callsToward p s.breakpoints depth budgets) = n + 1 :=
  ⟨Cpu.callsToward_stops (stamped_of_watched h).cpu budgets,
    fun _ hstop hfirst hbudget =>
      Cpu.stepsOf_callsToward (stamped_of_watched h).cpu hstop hfirst hbudget⟩

def trapPlatform : Platform :=
  { Cpu.nopPlatform with
    decode := fun word => if word = 0xD4000001 then .ok () else .error (.unknownInstruction word)
    execute := fun _ _ => .done (.ok .syscall) }

/-- A new machine with the one instruction `svc #0` loaded. -/
def trapCpu : Cpu :=
  ((Session.start maxTotalSteps).cpu.loadProgram [0xD4000001]).getD
    (Session.start maxTotalSteps).cpu

theorem watched_load {p : Platform} {code : List (BitVec 32)} {c : Cpu}
    (h : (Session.start maxTotalSteps).cpu.loadProgram code = some c) :
    ∃ l, Watched p (LoadsWhole p) { Session.start maxTotalSteps with cpu := c } l := by
  have hstart : Watched p (LoadsWhole p) (Session.start maxTotalSteps) Ledger.empty :=
    .start (by decide)
  have hhandle : (Session.start maxTotalSteps).handle p (.loadProgram code) =
      some { Session.start maxTotalSteps with cpu := c } := by
    simp only [Session.handle, h, Option.map_some]
  exact ⟨_, hstart.event _ ⟨fun _ hload => (by cases hload),
    fun _ _ hload => (by cases hload)⟩ hhandle⟩

theorem loadProgram_trapCpu :
    (Session.start maxTotalSteps).cpu.loadProgram [0xD4000001] = some trapCpu := by
  have hloads : ((Session.start maxTotalSteps).cpu.loadProgram [0xD4000001]).isSome = true := by
    decide +kernel
  obtain ⟨c, hc⟩ := Option.isSome_iff_exists.mp hloads
  rw [trapCpu, hc, Option.getD_some]

/-- A step over a trap that halts the machine ends in the program's code at the depth it
began at, and does not report its goal as reached. -/
theorem not_callsToward_halted : ∃ s l, Watched trapPlatform (LoadsWhole trapPlatform) s l ∧
    s.cpu.Awake ∧ (s.cpu.stepped trapPlatform).frames.depth ≤ s.cpu.frames.depth ∧
    (s.cpu.stepped trapPlatform).inProgram (s.cpu.stepped trapPlatform).regs.pc = true ∧
    ((s.cpu.callsToward trapPlatform s.breakpoints s.cpu.frames.depth [1, 1]).all
      fun call => !call.2.reached) = true := by
  have hfacts : (trapCpu.halted = false ∧ trapCpu.blocked = false) ∧
      (trapCpu.stepped trapPlatform).frames.depth ≤ trapCpu.frames.depth ∧
      (trapCpu.stepped trapPlatform).inProgram (trapCpu.stepped trapPlatform).regs.pc = true ∧
      ((trapCpu.callsToward trapPlatform ∅ trapCpu.frames.depth [1, 1]).all
        fun call => !call.2.reached) = true := by
    decide +kernel
  obtain ⟨⟨hrunning, hunblocked⟩, hdepth, hin, hquiet⟩ := hfacts
  obtain ⟨l, hwatched⟩ := watched_load (p := trapPlatform) loadProgram_trapCpu
  generalize trapCpu = c at *
  exact ⟨_, l, hwatched, ⟨hrunning, hunblocked⟩, hdepth, hin, hquiet⟩

/-- `bl` over one instruction to `mov x0, #7` and `ret`. -/
def overProgram : List (BitVec 32) := [0x00020004, 0x00010101, 0x00070001, 0x00000005]

/-- A step over the `bl` in three calls: into the callee, through it, and out to the line
behind the `bl`. -/
theorem callsToward_first_over : ∃ s l,
    Watched Cpu.smallPlatform (LoadsWhole Cpu.smallPlatform) s l ∧
    (s.cpu.stepped Cpu.smallPlatform).frames.depth = s.cpu.frames.depth + 1 ∧
    ((Cpu.stepped Cpu.smallPlatform)^[3] s.cpu).regs.pc = s.cpu.regs.pc + 4 ∧
    Cpu.stepsOf (s.cpu.callsToward Cpu.smallPlatform s.breakpoints s.cpu.frames.depth
      [1, 1, 2]) = 3 := by
  have hruns : ∃ c ∈ (Session.start maxTotalSteps).cpu.loadProgram overProgram,
      (∀ i < 3,
        let d := (Cpu.stepped Cpu.smallPlatform)^[i] c
        d.frames.badReturn.step ≤ d.stepsTaken ∧
          (d.stepped Cpu.smallPlatform).frames.badReturn.step = d.frames.badReturn.step) ∧
      (∀ i < 2, ((Cpu.stepped Cpu.smallPlatform)^[i + 1] c).frames.depth = c.frames.depth + 1) ∧
      let d := (Cpu.stepped Cpu.smallPlatform)^[2] c
      (d.halted = false ∧ d.blocked = false) ∧ (d.stepped Cpu.smallPlatform).halted = false ∧
        (d.stepped Cpu.smallPlatform).frames.depth ≤ c.frames.depth ∧
        (d.stepped Cpu.smallPlatform).inProgram (d.stepped Cpu.smallPlatform).regs.pc = true ∧
        (d.stepped Cpu.smallPlatform).regs.pc = c.regs.pc + 4 := by
    decide +kernel
  obtain ⟨c, hc, hrun, hdeeper, ⟨hrunning, hunblocked⟩, hhalted, hdepth, hin, hpc⟩ := hruns
  obtain ⟨l, hwatched⟩ := watched_load (p := Cpu.smallPlatform) hc
  have hsteady : ∀ i < 3, ¬ ((Cpu.stepped Cpu.smallPlatform)^[i] c).Strays Cpu.smallPlatform := by
    intro i hi hstrays
    obtain ⟨hstamped, hkept⟩ := hrun i hi
    exact (Cpu.Stamped.strays_iff hstamped).mpr hstrays hkept
  have hinside : ∀ i < 2,
      ¬ ((Cpu.stepped Cpu.smallPlatform)^[i] c).Reaches Cpu.smallPlatform c.frames.depth := by
    rintro i hi ⟨-, -, -, hreached, -⟩
    rw [← Function.iterate_succ_apply' (Cpu.stepped Cpu.smallPlatform), hdeeper i hi] at hreached
    omega
  have hstop := (callsToward_first hwatched c.frames.depth [1, 1, 2]).2 2
    (.inl ⟨⟨hrunning, hunblocked⟩, hsteady 2 (by decide), hhalted, hdepth, hin⟩)
    (fun i hi => ⟨hinside i hi, fun hastray => hsteady i (by omega) hastray.1⟩) (by decide)
  rw [← Function.iterate_succ_apply' (Cpu.stepped Cpu.smallPlatform)] at hpc
  exact ⟨_, l, hwatched, hdeeper 0 (by decide), hpc, hstop⟩

end Playground
