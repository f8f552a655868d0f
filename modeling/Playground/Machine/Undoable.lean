/-
The recorded history never hides a hole: in every session, the frames of the ring lead
back through the steps not yet undone, one step each and the newest first.  What a host
changed since the undone step goes back with it.
-/
import Playground.Machine.Watched

namespace Playground

namespace Cpu

theorem SameBody.trans {s t u : CpuState} (first : SameBody s t) (second : SameBody t u) :
    SameBody s u :=
  ⟨first.regs.trans second.regs, first.pages.trans second.pages,
    first.zeroFill.trans second.zeroFill, first.heap.trans second.heap,
    first.frames.trans second.frames, first.lastCall.trans second.lastCall⟩

/-- The state of a cpu between steps. -/
def Settles (s : CpuState) : Prop := ∃ c : Cpu, c.Settled ∧ c.state = s

/-- The frames, newest first, lead from `s` back through `pending`, one step each. -/
def Linked : List StepFrame → CpuState → List CpuState → Prop
  | [], _, _ => True
  | frame :: frames, s, pending => ∃ prev rest, pending = prev :: rest ∧
      Restores frame s prev ∧ Settles prev ∧ s.stepsTaken = prev.stepsTaken + 1 ∧
      Linked frames prev rest

namespace Linked

/-- Only the body and the step count of the present state matter. -/
theorem congr {frames : List StepFrame} {s t : CpuState} {pending : List CpuState}
    (h : Linked frames s pending) (hbody : SameBody t s) (htaken : t.stepsTaken = s.stepsTaken) :
    Linked frames t pending := by
  cases frames with
  | nil => trivial
  | cons frame frames =>
      obtain ⟨prev, rest, hpending, hrestores, hsettles, hstep, hlinked⟩ := h
      refine ⟨prev, rest, hpending, fun d hd => ?_, hsettles, htaken.trans hstep, hlinked⟩
      exact hrestores d (hd.trans hbody)

/-- The oldest frames can be dropped. -/
theorem of_append {newer older : List StepFrame} {s : CpuState} {pending : List CpuState}
    (h : Linked (newer ++ older) s pending) : Linked newer s pending := by
  induction newer generalizing s pending with
  | nil => trivial
  | cons frame newer ih =>
      obtain ⟨prev, rest, hpending, hrestores, hsettles, hstep, hlinked⟩ := h
      exact ⟨prev, rest, hpending, hrestores, hsettles, hstep, ih hlinked⟩

end Linked

/-- A step back into a settled state leaves the cpu settled. -/
theorem Settled.undoFrame {c : Cpu} (h : c.Settled) {frame : StepFrame} {prev : CpuState}
    (hrestores : Restores frame c.state prev) (hprev : Settles prev) :
    (c.undoFrame frame).Settled := by
  obtain ⟨hstate, hrec⟩ := hrestores c (SameBody.refl _)
  obtain ⟨d, hd, rfl⟩ := hprev
  obtain ⟨hregs, hmem, hheap⟩ := h.machine.idle rfl
  have hpages : (c.undoFrame frame).mem.pages = d.mem.pages := congrArg CpuState.pages hstate
  have htables : (c.undoFrame frame).machine.heap.toHeapTables = d.machine.heap.toHeapTables :=
    congrArg CpuState.heap hstate
  have hread : (c.undoFrame frame).regs.toRegisterState = d.regs.toRegisterState :=
    congrArg CpuState.regs hstate
  refine ⟨⟨?_, ?_, fun _ => ⟨hregs, hrec.trans hmem, hheap⟩, by simp⟩, ?_, h.capacity, h.ring⟩
  · change (c.undoFrame frame).mem.Budgeted
    unfold Memory.Budgeted
    rw [hpages]
    exact hd.machine.budgeted
  · rw [htables]
    exact hd.machine.wellFormed
  · rw [hread]
    exact hd.reads

end Cpu

/-- The saved machine is one between steps. -/
structure SavedState.Settled (snap : SavedState) : Prop where
  machine : MachineTracks none ⟨snap.regs, snap.mem, snap.heap⟩
  reads : snap.regs.clobberedReads = default

/-- What a session keeps. -/
structure Undoable (s : Session) (l : Ledger) : Prop where
  settled : s.cpu.Settled
  saves : ∀ name snap, s.named name = some snap → snap.Settled
  linked : Cpu.Linked s.cpu.snapshots.frames.reverse s.cpu.state l.pending

namespace Cpu

variable {p : Platform} {c : Cpu} {l : Ledger}

theorem executes_iff_prepared : c.Executes ↔ (c.prepared.halted = false ∧
    c.prepared.blocked = false ∧ c.prepared.stepsTotal < c.prepared.maxTotalSteps ∧
    stackFloor ≤ c.prepared.regs.sp) := by
  rw [prepared_regs]
  exact ⟨fun h => ⟨h.running, h.unblocked, h.budget, h.stack⟩,
    fun ⟨running, unblocked, budget, stack⟩ => ⟨running, unblocked, budget, stack⟩⟩

/-- A step adds its frame on top, ends the history, or is refused and changes nothing. -/
theorem linked_step (h : c.Settled)
    (hlinked : Linked c.snapshots.frames.reverse c.state l.pending) :
    Linked (c.stepped p).snapshots.frames.reverse (c.stepped p).state
      (l.afterStep p c).pending := by
  unfold Ledger.afterStep
  split
  · next hexec =>
      obtain ⟨r, b, hdone⟩ := executed_step p hexec
      cases hrec : c.recordsFrames with
      | true =>
          obtain ⟨-, frame, hframes, hrestores⟩ := step_recorded p h
            ⟨hexec.running, hexec.unblocked, hexec.budget, hexec.stack, hrec⟩
          have hroom : ∃ older, c.snapshots.frames.reverse =
              c.snapshots.makeRoom.reverse ++ older := by
            unfold SnapshotRing.makeRoom
            split
            · refine ⟨(c.snapshots.frames.take 1).reverse, ?_⟩
              rw [← List.reverse_append, List.take_append_drop]
            · exact ⟨[], by simp⟩
          obtain ⟨older, hsplit⟩ := hroom
          rw [hsplit] at hlinked
          change Linked (c.step p).1.snapshots.frames.reverse (c.step p).1.state _
          rw [hframes, List.reverse_append, List.reverse_singleton, List.singleton_append]
          exact ⟨c.state, l.pending, rfl, hrestores, ⟨c, h, rfl⟩, hdone.stepsTaken,
            hlinked.of_append⟩
      | false =>
          have hempty := (h.step_unrecorded p (executes_iff_prepared.mp hexec) hrec).2
          change Linked (c.step p).1.snapshots.frames.reverse (c.step p).1.state _
          rw [hempty]
          trivial
  · next hexec =>
      obtain ⟨-, hframes, hbody⟩ :=
        h.step_refused p fun hrun => hexec (executes_iff_prepared.mpr hrun)
      have hsilent := silent_step_refused p hexec
      change Linked (c.step p).1.snapshots.frames.reverse (c.step p).1.state _
      rw [hframes]
      exact hlinked.congr hbody hsilent.stepsTaken

/-- A step back lands where the newest of the steps not yet undone began. -/
theorem stepBack_linked {frame : StepFrame} (hnewest : c.snapshots.newest = some frame)
    (hlinked : Linked c.snapshots.frames.reverse c.state l.pending) :
    ∃ prev rest, l.pending = prev :: rest ∧ c.stepBack.1.state = prev ∧
      c.stepsTaken = c.stepBack.1.stepsTaken + 1 ∧
      Linked c.stepBack.1.snapshots.frames.reverse prev rest ∧
      (c.Settled → c.stepBack.1.Settled) := by
  have hlast : c.snapshots.frames.getLast? = some frame := hnewest
  have hsplit := List.dropLast_append_getLast? frame hlast
  rw [← hsplit, List.reverse_append, List.reverse_singleton, List.singleton_append] at hlinked
  obtain ⟨prev, rest, hpending, hrestores, hsettles, hstep, hrest⟩ := hlinked
  let d : Cpu := { c with snapshots := { c.snapshots with frames := c.snapshots.frames.dropLast } }
  have hback : c.stepBack.1 = d.undoFrame frame := by
    simp only [Cpu.stepBack, hnewest, d]
  have hstate : c.stepBack.1.state = prev := by
    rw [hback]
    exact (hrestores d (SameBody.refl _)).1
  have htaken : c.stepBack.1.stepsTaken = prev.stepsTaken := congrArg (·.stepsTaken) hstate
  have hring : c.stepBack.1.snapshots.frames = c.snapshots.frames.dropLast := by
    rw [hback]
    rfl
  refine ⟨prev, rest, hpending, hstate, by rw [htaken]; exact hstep, hring ▸ hrest, fun hc => ?_⟩
  rw [hback]
  have hd : d.Settled := by
    refine ⟨hc.machine, hc.reads, hc.capacity, ?_⟩
    have hlen := hc.ring
    simp only [d, List.length_dropLast]
    omega
  exact hd.undoFrame hrestores hsettles

/-- A host update changes nothing a frame keeps as a log. -/
theorem update_body (c : Cpu) (u : HostUpdate) : SameBody (u.apply c).state c.state ∧
    (u.apply c).stepsTaken = c.stepsTaken ∧ (u.apply c).machine = c.machine ∧
    (u.apply c).snapshots = c.snapshots := by
  cases u with
  | pushStdin bytes => exact ⟨⟨rfl, rfl, rfl, rfl, rfl, rfl⟩, rfl, rfl, rfl⟩
  | pushStdinInteractive bytes => exact ⟨⟨rfl, rfl, rfl, rfl, rfl, rfl⟩, rfl, rfl, rfl⟩
  | closeStdin => exact ⟨⟨rfl, rfl, rfl, rfl, rfl, rfl⟩, rfl, rfl, rfl⟩
  | uploadVfsFile path data =>
      have hsame : SameBody c.state c.state := SameBody.refl _
      simp only [HostUpdate.apply, uploadVfsFile]
      split
      · exact ⟨hsame, rfl, rfl, rfl⟩
      split
      · exact ⟨hsame, rfl, rfl, rfl⟩
      split
      · exact ⟨hsame, rfl, rfl, rfl⟩
      · exact ⟨⟨rfl, rfl, rfl, rfl, rfl, rfl⟩, rfl, rfl, rfl⟩
  | deleteVfsFile path => exact ⟨⟨rfl, rfl, rfl, rfl, rfl, rfl⟩, rfl, rfl, rfl⟩

theorem Settled.update (h : c.Settled) (u : HostUpdate) : (u.apply c).Settled := by
  obtain ⟨-, -, hmachine, hring⟩ := update_body c u
  refine ⟨hmachine ▸ h.machine, ?_, hring ▸ h.capacity, hring ▸ h.ring⟩
  change (u.apply c).machine.regs.clobberedReads = default
  rw [hmachine]
  exact h.reads

theorem Settled.drain (h : c.Settled) (d : HostDrain) : (d.apply c).Settled := by
  cases d with
  | takeDirty =>
      have hm := h.machine
      exact ⟨⟨hm.budgeted, hm.wellFormed, hm.idle, by simp⟩, h.reads, h.capacity, h.ring⟩
  | _ => exact ⟨h.machine, h.reads, h.capacity, h.ring⟩

theorem drain_body (c : Cpu) (d : HostDrain) : SameBody (d.apply c).state c.state ∧
    (d.apply c).stepsTaken = c.stepsTaken ∧ (d.apply c).snapshots = c.snapshots := by
  cases d <;> exact ⟨SameBody.refl _, rfl, rfl⟩

theorem Settled.restoreSaved (h : c.Settled) {snap : SavedState} (hsnap : snap.Settled) :
    (c.restoreSaved snap).Settled :=
  ⟨hsnap.machine, hsnap.reads, h.capacity, Nat.zero_le _⟩

theorem Settled.savedState (h : c.Settled) : c.savedState.Settled := ⟨h.machine, h.reads⟩

/-- The load of an image ends the history, also when it fails partway. -/
theorem loadLinkedImage_frames (c : Cpu) (image : LinkedImage) (args : List String) :
    (c.loadLinkedImageWithArgs p image args).1.snapshots.frames = [] := by
  have henter : ∀ d : Cpu, (d.enterImage p image).snapshots = d.snapshots := by
    intro d
    unfold Cpu.enterImage
    simp only
    split <;> rfl
  unfold Cpu.loadLinkedImageWithArgs
  simp only
  split
  · rfl
  · next mem _ =>
      have hring := henter (c.startImage.setMem mem)
      generalize (c.startImage.setMem mem).enterImage p image = d at hring ⊢
      have hempty : d.snapshots.frames = [] := by
        rw [hring]
        rfl
      split <;> exact hempty

end Cpu

namespace Undoable

variable {p : Platform} {s : Session} {l : Ledger}

/-- A cpu with an empty ring has nothing to lead back. -/
theorem ended (h : Undoable s l) {c : Cpu} (hsettled : c.Settled) (hring : c.snapshots.frames = [])
    (l : Ledger) : Undoable { s with cpu := c } l := by
  refine ⟨hsettled, h.saves, ?_⟩
  simp only [hring, List.reverse_nil]
  trivial

/-- A change of the cpu that keeps the ring and the body. -/
theorem kept (h : Undoable s l) {c : Cpu} (hsettled : c.Settled)
    (hbody : Cpu.SameBody c.state s.cpu.state) (htaken : c.stepsTaken = s.cpu.stepsTaken)
    (hring : c.snapshots = s.cpu.snapshots) : Undoable { s with cpu := c } l := by
  refine ⟨hsettled, h.saves, ?_⟩
  simp only [hring]
  exact h.linked.congr hbody htaken

/-- Every event keeps the frames linked, the load of bare sections apart. -/
theorem event {s' : Session} (h : Undoable s l) {e : Event}
    (hallowed : ∀ program, e = .loadSections program → s.cpu.snapshots.frames = [])
    (hhandle : s.handle p e = some s') : Undoable s' (l.after p s e) := by
  cases e with
  | step =>
      obtain rfl := Option.some.inj hhandle
      exact ⟨h.settled.step p, h.saves, Cpu.linked_step h.settled h.linked⟩
  | runUntil maxSteps goal =>
      obtain rfl := Option.some.inj hhandle
      have hrun := Ledger.watch_runUntil
        (motive := fun c l => c.Settled ∧ Cpu.Linked c.snapshots.frames.reverse c.state l.pending)
        ⟨h.settled, h.linked⟩
        (fun c l hc => ⟨hc.1.step p, Cpu.linked_step hc.1 hc.2⟩) maxSteps goal
      exact ⟨hrun.1, h.saves, hrun.2⟩
  | stepBack =>
      obtain rfl := Option.some.inj hhandle
      refine Ledger.after_stepBack (motive := fun c => Undoable { s with cpu := c }) h ?_
      intro frame hnewest
      obtain ⟨prev, rest, hpending, hstate, -, hrest, hsettled⟩ :=
        Cpu.stepBack_linked hnewest h.linked
      refine ⟨hsettled h.settled, h.saves, ?_⟩
      simp only [hpending, List.tail_cons, hstate]
      exact hrest
  | setSnapshotsPaused paused =>
      obtain rfl := Option.some.inj hhandle
      have hs := h.settled
      exact h.kept ⟨hs.machine, hs.reads, hs.capacity, hs.ring⟩ (Cpu.SameBody.refl _) rfl rfl
  | update u =>
      obtain rfl := Option.some.inj hhandle
      obtain ⟨hbody, htaken, -, hring⟩ := Cpu.update_body s.cpu u
      exact h.kept (h.settled.update u) hbody htaken hring
  | drain d =>
      obtain rfl := Option.some.inj hhandle
      obtain ⟨hbody, htaken, hring⟩ := Cpu.drain_body s.cpu d
      exact h.kept (h.settled.drain d) hbody htaken hring
  | saveState name =>
      obtain rfl := Option.some.inj hhandle
      refine ⟨h.settled, Session.named_update h.saves ?_, h.linked⟩
      rintro snap ⟨⟩
      exact h.settled.savedState
  | loadState name =>
      exact Ledger.after_loadState hhandle h fun snap hnamed =>
        h.ended (h.settled.restoreSaved (h.saves name snap hnamed)) rfl _
  | deleteState name =>
      obtain rfl := Option.some.inj hhandle
      exact ⟨h.settled, Session.named_update h.saves (by simp), h.linked⟩
  | reset =>
      simp only [Session.handle, Option.map_eq_some_iff] at hhandle
      obtain ⟨c', hreset, rfl⟩ := hhandle
      refine h.ended (h.settled.reset hreset) ?_ _
      simp only [Cpu.reset, Option.bind_eq_bind, Option.bind_eq_some_iff, Option.pure_def,
        Option.some.injEq] at hreset
      obtain ⟨mem, -, rfl⟩ := hreset
      rfl
  | loadProgram code =>
      simp only [Session.handle, Option.map_eq_some_iff] at hhandle
      obtain ⟨c', hload, rfl⟩ := hhandle
      refine h.ended (h.settled.loadProgram hload) ?_ _
      unfold Cpu.loadProgram at hload
      split at hload
      · cases hload
      · obtain rfl := Option.some.inj hload
        rfl
  | loadLinkedImage image args =>
      obtain rfl := Option.some.inj hhandle
      exact h.ended (h.settled.loadLinkedImageWithArgs p image args)
        (Cpu.loadLinkedImage_frames s.cpu image args) _
  | loadSections program =>
      obtain rfl := Option.some.inj hhandle
      refine h.ended (h.settled.loadSections program) ?_ _
      have hempty := hallowed program rfl
      unfold Cpu.loadSections
      split <;> exact hempty
  | setBreakpoint addr =>
      obtain rfl := Option.some.inj hhandle
      exact ⟨h.settled, h.saves, h.linked⟩
  | clearBreakpoint addr =>
      obtain rfl := Option.some.inj hhandle
      exact ⟨h.settled, h.saves, h.linked⟩
  | clearAllBreakpoints =>
      obtain rfl := Option.some.inj hhandle
      exact ⟨h.settled, h.saves, h.linked⟩

end Undoable

/-- No bare sections are loaded over a recorded history. -/
def KeepsSections (s : Session) (e : Event) : Prop :=
  ∀ program, e = .loadSections program → s.cpu.snapshots.frames = []

theorem undoable_of_watched {p : Platform} {s : Session} {l : Ledger}
    (h : Watched p KeepsSections s l) : Undoable s l := by
  induction h with
  | start _ =>
      have hs := Cpu.settled_new Cpu.new_eq_fresh
      exact ⟨⟨hs.machine, hs.reads, hs.capacity, hs.ring⟩, fun _ _ hsnap => (by cases hsnap),
        trivial⟩
  | event _ e hallowed hhandle ih => exact ih.event hallowed hhandle

/-- A step back that takes a frame lowers the step count by one and lands where the most
recent step that was executed and is not yet undone began. -/
def StepsBackOne (s : Session) (l : Ledger) : Prop :=
  ∀ frame, s.cpu.snapshots.newest = some frame →
    s.cpu.stepsTaken = s.cpu.stepBack.1.stepsTaken + 1 ∧
    ∃ prev rest, l.pending = prev :: rest ∧ s.cpu.stepBack.1.state = prev

/-- In every session without a load of bare sections over a recorded history, a step back
undoes exactly the most recent step: none is skipped, and none leads past a restore. -/
theorem stepsBackOne_of_watched (p : Platform) {s : Session} {l : Ledger}
    (h : Watched p KeepsSections s l) : StepsBackOne s l := by
  intro frame hnewest
  obtain ⟨prev, rest, hpending, hstate, htaken, -⟩ :=
    Cpu.stepBack_linked hnewest (undoable_of_watched h).linked
  exact ⟨htaken, prev, rest, hpending, hstate⟩

/-- A session with a pause, a sleep and a restored save, of which two recorded steps are
left to undo. -/
theorem stepsBackOne_of_watched_tour : ∃ s l, Watched Cpu.smallPlatform KeepsSections s l ∧
    (l.executed = 8 ∧ l.undone = 1 ∧ l.pending.length = 2) ∧
    s.cpu.snapshots.newest.isSome = true ∧ StepsBackOne s l := by
  have hends : ∃ w ∈ toured, (w.2.executed = 8 ∧ w.2.undone = 1 ∧ w.2.pending.length = 2) ∧
      w.1.cpu.snapshots.newest.isSome = true := by
    decide +kernel
  obtain ⟨w, hw, hledger, hnewest⟩ := hends
  have hstart : Watched Cpu.smallPlatform KeepsSections (Session.start maxTotalSteps)
      Ledger.empty := .start (by decide)
  have hwatched := Watched.watchAll hstart (by simp [tourEvents, KeepsSections]) hw
  exact ⟨w.1, w.2, hwatched, hledger, hnewest,
    stepsBackOne_of_watched Cpu.smallPlatform hwatched⟩

def byteProgram : Program where
  sections := [⟨.data, [.bytes [1]]⟩]
  globals := []
  expandedSource := ""
  kinds_nodup := by decide

/-- The byte at the start of the data section when the step before a load is undone. -/
def undoneByte (p : Platform) (c : Cpu) (program : Program) : Byte :=
  peek (((c.step p).1.loadSections program).1.stepBack.1.state.pages) dataBase

/-- A recorded step, then bare sections that change a byte: undoing the step leaves it. -/
theorem exists_not_stepsBackOne {p : Platform} {s : Session} {l : Ledger} (program : Program)
    (h : Watched p (fun _ _ => True) s l) (hexec : s.cpu.Executes)
    (hnewest : ((s.cpu.step p).1.loadSections program).1.snapshots.newest.isSome = true)
    (hbyte : undoneByte p s.cpu program ≠ peek s.cpu.state.pages dataBase) :
    ∃ s l, Watched p (fun _ _ => True) s l ∧ ¬ StepsBackOne s l := by
  have hload := (h.event .step trivial rfl).event (.loadSections program) trivial rfl
  refine ⟨_, _, hload, fun hback => hbyte ?_⟩
  obtain ⟨frame, hframe⟩ := Option.isSome_iff_exists.mp hnewest
  obtain ⟨-, prev, rest, hpending, hstate⟩ := hback frame hframe
  have hbegan : prev = s.cpu.state := by
    simp only [Ledger.after, Ledger.afterStep, if_pos hexec, List.cons.injEq] at hpending
    exact hpending.1.symm
  rw [undoneByte, ← hbegan, ← hstate]

/-- Bare sections loaded after a recorded step stay in memory when it is undone. -/
theorem not_stepsBackOne_loadSections : ∃ s l,
    Watched Cpu.nopPlatform (fun _ _ => True) s l ∧ ¬ StepsBackOne s l := by
  have hstart : Watched Cpu.nopPlatform (fun _ _ => True) (Session.start maxTotalSteps)
      Ledger.empty := .start (by decide)
  have hexec : (Session.start maxTotalSteps).cpu.Executes :=
    ⟨rfl, rfl, (by decide : 0 < maxTotalSteps), (by decide : stackFloor ≤ stackBase)⟩
  exact exists_not_stepsBackOne byteProgram hstart hexec (by decide +kernel)
    (by decide +kernel)

namespace Cpu

/-- The newest copy in the ring after a recorded step is the state the step began in. -/
theorem step_copies (p : Platform) {c : Cpu} (h : c.Records) :
    ∃ older, (c.step p).1.copies = older ++ [c.toCopied] := by
  obtain ⟨r, b, hdone⟩ := executed_step p ⟨h.running, h.unblocked, h.budget, h.stack⟩
  have hopened := opened_copies c
  rw [if_pos h.recording] at hopened
  exact ⟨_, hdone.copies.trans hopened⟩

theorem stepBack_copied {c : Cpu} {older : List Copied} {copied : Copied}
    (h : c.copies = older ++ [copied]) : c.stepBack.1.toCopied = copied := by
  have hlast : c.snapshots.frames.getLast?.map StepFrame.toCopied = some copied := by
    rw [← List.getLast?_map]
    change c.copies.getLast? = some copied
    rw [h, List.getLast?_append_of_ne_nil _ (by simp), List.getLast?_singleton]
  obtain ⟨frame, hnewest, rfl⟩ := Option.map_eq_some_iff.mp hlast
  have hnewest : c.snapshots.newest = some frame := hnewest
  simp only [stepBack, hnewest]
  rfl

/-- The host changes one thing after another between two steps. -/
def updated (c : Cpu) (updates : List HostUpdate) : Cpu := updates.foldl HostUpdate.apply c

theorem updated_snapshots (c : Cpu) (updates : List HostUpdate) :
    (c.updated updates).snapshots = c.snapshots := by
  induction updates generalizing c with
  | nil => rfl
  | cons u updates ih =>
      obtain ⟨-, -, -, hring⟩ := update_body c u
      exact (ih (u.apply c)).trans hring

/-- No update touches the copy that the recorded step left. -/
theorem updated_step_copies (p : Platform) {c : Cpu} (h : c.Records)
    (updates : List HostUpdate) :
    ∃ older, ((c.step p).1.updated updates).copies = older ++ [c.toCopied] := by
  obtain ⟨older, hcopies⟩ := step_copies p h
  refine ⟨older, ?_⟩
  unfold copies
  rw [updated_snapshots]
  exact hcopies

/-- The update outlives the step back that follows it: pushed bytes stand behind those the
undone step had, the end of input stays, and a file that was stored is there. -/
def Outlives (p : Platform) (c : Cpu) (u : HostUpdate) : Prop :=
  let back := (u.apply (c.step p).1).stepBack.1
  match u with
  | .pushStdin bytes => back.stdin = c.stdin ++ bytes
  | .pushStdinInteractive bytes => back.stdin = c.stdin ++ bytes
  | .closeStdin => back.stdinClosed = true
  | .uploadVfsFile path data => ((c.step p).1.uploadVfsFile path data).2 = true →
      back.vfs.find? (fun file => file.1 == path) = some (path, data)
  | .deleteVfsFile path => back.vfs.find? (fun file => file.1 == path) = none

/-- Undoing a recorded step puts the whole small state back as the step began with it: the
queue and its segments, the end of input, the files.  Whatever the host changed since goes
with the step. -/
theorem stepBack_takes_updates (p : Platform) (c : Cpu) (updates : List HostUpdate)
    (h : c.Records) : (((c.step p).1.updated updates).stepBack.1).toCopied = c.toCopied := by
  obtain ⟨older, hcopies⟩ := updated_step_copies p h updates
  exact stepBack_copied hcopies

theorem fresh_records : fresh.Records :=
  ⟨rfl, rfl, (by decide : 0 < Playground.maxTotalSteps),
    (by decide : stackFloor ≤ stackBase), rfl⟩

/-- A line pushed at a new machine after its first step, and the end of input. -/
theorem stepBack_takes_updates_fresh :
    (((fresh.step nopPlatform).1.updated [.pushStdin [65], .closeStdin]).stepBack.1).toCopied =
      fresh.toCopied :=
  stepBack_takes_updates nopPlatform fresh _ fresh_records

/-- Undoing the first step of a new machine takes back a pushed byte, the end of input and
an uploaded file. -/
theorem not_outlives_fresh : ∃ c, Reachable nopPlatform c ∧ c.Records ∧
    ¬ Outlives nopPlatform c (.pushStdin [65]) ∧
    ¬ Outlives nopPlatform c (.pushStdinInteractive [65]) ∧
    ¬ Outlives nopPlatform c .closeStdin ∧
    ¬ Outlives nopPlatform c (.uploadVfsFile "f" [1]) := by
  have hback : ∀ u : HostUpdate,
      (u.apply (fresh.step nopPlatform).1).stepBack.1.toCopied = idleState := by
    intro u
    obtain ⟨older, hcopies⟩ := updated_step_copies nopPlatform fresh_records [u]
    exact stepBack_copied hcopies
  have hstored : ((fresh.step nopPlatform).1.uploadVfsFile "f" [1]).2 = true := by
    decide +kernel
  refine ⟨fresh, .new new_eq_fresh, fresh_records, ?_, ?_, ?_, ?_⟩
  · intro hkept
    have hqueue := congrArg Copied.stdin (hback (.pushStdin [65]))
    exact absurd (hkept.symm.trans hqueue) (by decide)
  · intro hkept
    have hqueue := congrArg Copied.stdin (hback (.pushStdinInteractive [65]))
    exact absurd (hkept.symm.trans hqueue) (by decide)
  · intro hkept
    have hclosed := congrArg Copied.stdinClosed (hback .closeStdin)
    exact absurd (hkept.symm.trans hclosed) (by decide)
  · intro hkept
    have hfiles := congrArg Copied.vfs (hback (.uploadVfsFile "f" [1]))
    have hfound := hkept hstored
    rw [hfiles] at hfound
    exact absurd hfound (by decide)

end Cpu

end Playground
