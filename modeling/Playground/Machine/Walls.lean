/-
The runaway walls over whole sessions: however steps, runs, steps back, saves and loads
of saves are mixed, the steps that stand and the bytes printed stay within the walls and
the lifetime refund.
-/
import Playground.Machine.Watched

namespace Playground

/-- Each copy, newest first, had spent what the steps standing below it cost. -/
def Covers (refunded : Nat) : Int → List Copied → Prop
  | _, [] => True
  | net, copy :: copies => net ≤ copy.stepsTotal + refunded ∧ Covers refunded (net - 1) copies

namespace Covers

theorem of_neg {refunded : Nat} {net : Int} (h : net ≤ 0) (copies : List Copied) :
    Covers refunded net copies := by
  induction copies generalizing net with
  | nil => trivial
  | cons copy copies ih => exact ⟨by omega, ih (by omega)⟩

theorem mono {refunded refunded' : Nat} (hle : refunded ≤ refunded') {net : Int}
    {copies : List Copied} (h : Covers refunded net copies) : Covers refunded' net copies := by
  induction copies generalizing net with
  | nil => trivial
  | cons copy copies ih =>
      obtain ⟨hfirst, hrest⟩ := h
      exact ⟨by omega, ih hrest⟩

theorem of_append {refunded : Nat} {net : Int} {newer older : List Copied}
    (h : Covers refunded net (newer ++ older)) : Covers refunded net newer := by
  induction newer generalizing net with
  | nil => trivial
  | cons copy newer ih => exact ⟨h.1, ih h.2⟩

end Covers

namespace Ledger

/-- The steps executed and not undone. -/
def net (l : Ledger) : Int := l.executed - l.undone

end Ledger

/-- What keeps a session within the walls. -/
structure Walled (c : Cpu) (l : Ledger) : Prop where
  ceiling : c.maxTotalSteps < 2 ^ 64
  stepsRefunded : c.refundStepsTotal ≤ maxRefundSteps
  outputRefunded : c.refundOutputTotal ≤ maxRefundOutputBytes
  spent : l.net ≤ c.stepsTotal + c.refundStepsTotal
  frames : Covers c.refundStepsTotal (l.net - 1) c.copies.reverse
  net_le : l.net ≤ c.maxTotalSteps + maxRefundSteps
  printed : l.printed ≤ c.outputTotal + c.refundOutputTotal

namespace Walled

variable {p : Platform} {c : Cpu} {l : Ledger}

/-- Only the ring, its contents and the counters matter. -/
theorem congr {c' : Cpu} (h : Walled c l) (hmax : c'.maxTotalSteps = c.maxTotalSteps)
    (hcopies : c'.copies = c.copies) (hcounters : c'.counters = c.counters) : Walled c' l := by
  have hsteps : c'.stepsTotal = c.stepsTotal := congrArg Cpu.Counters.stepsTotal hcounters
  have hrefund : c'.refundStepsTotal = c.refundStepsTotal :=
    congrArg Cpu.Counters.refundStepsTotal hcounters
  have hrefund' : c'.refundOutputTotal = c.refundOutputTotal :=
    congrArg Cpu.Counters.refundOutputTotal hcounters
  have houtput : c'.outputTotal = c.outputTotal := congrArg Cpu.Counters.outputTotal hcounters
  constructor
  · rw [hmax]
    exact h.ceiling
  · rw [hrefund]
    exact h.stepsRefunded
  · rw [hrefund']
    exact h.outputRefunded
  · rw [hsteps, hrefund]
    exact h.spent
  · rw [hrefund, hcopies]
    exact h.frames
  · rw [hmax]
    exact h.net_le
  · rw [houtput, hrefund']
    exact h.printed

/-- A fresh ledger is within the walls of any ring. -/
theorem of_empty (hceiling : c.maxTotalSteps < 2 ^ 64)
    (hsteps : c.refundStepsTotal ≤ maxRefundSteps)
    (houtput : c.refundOutputTotal ≤ maxRefundOutputBytes) : Walled c Ledger.empty := by
  refine ⟨hceiling, hsteps, houtput, ?_, ?_, ?_, Nat.zero_le _⟩
  · change (0 : Int) - 0 ≤ _
    omega
  · exact Covers.of_neg (by change ((0 : Int) - 0) - 1 ≤ 0; omega) _
  · change (0 : Int) - 0 ≤ _
    omega

/-- The frame of a step joins frames the ring already held. -/
theorem covers_opened (h : Walled c l) {refunded : Nat} (hle : c.refundStepsTotal ≤ refunded) :
    Covers refunded l.net c.opened.copies.reverse := by
  have hroom : ∃ older, c.copies.reverse =
      (if c.copies.length = c.snapshots.capacity then c.copies.drop 1 else c.copies).reverse ++
        older := by
    split
    · refine ⟨(c.copies.take 1).reverse, ?_⟩
      rw [← List.reverse_append, List.take_append_drop]
    · exact ⟨[], by simp⟩
  obtain ⟨older, hsplit⟩ := hroom
  have hframes := h.frames
  rw [hsplit] at hframes
  rw [Cpu.opened_copies]
  split
  · rw [List.reverse_append, List.reverse_singleton, List.singleton_append]
    have hspent := h.spent
    exact ⟨by omega, hframes.of_append.mono hle⟩
  · trivial

theorem step (h : Walled c l) : Walled (c.stepped p) (l.afterStep p c) := by
  unfold Ledger.afterStep
  split
  · next hexec =>
      obtain ⟨r, b, hdone⟩ := Cpu.executed_step p hexec
      change Cpu.Executed r b c (c.stepped p) at hdone
      have hbudget := hexec.budget
      have hceiling := h.ceiling
      have hsteps := hdone.steps
      have hrefund := hdone.stepsRefunded
      have hcap := hdone.stepsCap
      have hrefund' := hdone.outputRefunded
      have hcap' := hdone.outputCap
      have hold := h.stepsRefunded
      have hold' := h.outputRefunded
      have hspent := h.spent
      have hprinted := h.printed
      have houtput := hdone.output
      have hnet : Ledger.net { l with
          executed := l.executed + 1
          printed := l.printed + (((c.step p).1.stdout.length - c.stdout.length) +
            ((c.step p).1.stderr.length - c.stderr.length))
          pending := c.state :: l.pending } = l.net + 1 := by
        unfold Ledger.net
        push_cast
        ring
      have hsame : l.net + 1 - 1 = l.net := by ring
      constructor
      · rw [hdone.maxTotalSteps]
        exact h.ceiling
      · omega
      · omega
      · rw [hnet]
        omega
      · rw [hnet, hdone.copies, hsame]
        exact h.covers_opened (by omega)
      · rw [hnet, hdone.maxTotalSteps]
        omega
      · change l.printed + (((c.stepped p).stdout.length - c.stdout.length) +
          ((c.stepped p).stderr.length - c.stderr.length)) ≤ _
        omega
  · next hexec =>
      have hsilent := Cpu.silent_step_refused p hexec
      exact h.congr (congrArg Cpu.Setup.maxTotalSteps hsilent.setup)
        (congrArg Cpu.Setup.copies hsilent.setup) hsilent.counters

theorem stepBack (h : Walled c l) {frame : StepFrame} (hnewest : c.snapshots.newest = some frame) :
    Walled c.stepBack.1 { l with undone := l.undone + 1, pending := l.pending.tail } := by
  have hlast : c.snapshots.frames.getLast? = some frame := hnewest
  have hsplit := List.dropLast_append_getLast? frame hlast
  have hback : c.stepBack.1 = ({ c with snapshots := { c.snapshots with
      frames := c.snapshots.frames.dropLast } } : Cpu).undoFrame frame := by
    simp only [Cpu.stepBack, hnewest]
  have hring : c.stepBack.1.snapshots.frames = c.snapshots.frames.dropLast := by rw [hback]; rfl
  have hcopies : c.copies.reverse = frame.toCopied :: c.stepBack.1.copies.reverse := by
    unfold Cpu.copies
    rw [hring]
    nth_rewrite 1 [← hsplit]
    simp
  have hnet : Ledger.net { l with undone := l.undone + 1, pending := l.pending.tail } =
      l.net - 1 := by
    unfold Ledger.net
    push_cast
    ring
  have hframes := h.frames
  rw [hcopies] at hframes
  obtain ⟨hfirst, hrest⟩ := hframes
  have hrefund : c.stepBack.1.refundStepsTotal = c.refundStepsTotal := by rw [hback]; rfl
  have hrefund' : c.stepBack.1.refundOutputTotal = c.refundOutputTotal := by rw [hback]; rfl
  have houtput : c.stepBack.1.outputTotal = c.outputTotal := by rw [hback]; rfl
  have hsteps : c.stepBack.1.stepsTotal = frame.stepsTotal := by rw [hback]; rfl
  have hmax : c.stepBack.1.maxTotalSteps = c.maxTotalSteps := by rw [hback]; rfl
  constructor
  · rw [hmax]
    exact h.ceiling
  · rw [hrefund]
    exact h.stepsRefunded
  · rw [hrefund']
    exact h.outputRefunded
  · rw [hnet, hsteps, hrefund]
    exact hfirst
  · rw [hnet, hrefund]
    exact hrest
  · have hnet_le := h.net_le
    rw [hnet, hmax]
    omega
  · rw [houtput, hrefund']
    exact h.printed

/-- A load of a save keeps the counters and ends the history. -/
theorem restoreSaved (h : Walled c l) (snap : SavedState) :
    Walled (c.restoreSaved snap) { l with pending := [] } :=
  ⟨h.ceiling, h.stepsRefunded, h.outputRefunded, h.spent, trivial, h.net_le, h.printed⟩

theorem update (h : Walled c l) (u : HostUpdate) : Walled (u.apply c) l := by
  cases u with
  | pushStdin bytes => exact h.congr rfl rfl rfl
  | pushStdinInteractive bytes => exact h.congr rfl rfl rfl
  | closeStdin => exact h.congr rfl rfl rfl
  | uploadVfsFile path data =>
      simp only [HostUpdate.apply, Cpu.uploadVfsFile]
      split
      · exact h
      split
      · exact h
      split
      · exact h
      · exact h.congr rfl rfl rfl
  | deleteVfsFile path => exact h.congr rfl rfl rfl

theorem drain (h : Walled c l) (d : HostDrain) : Walled (d.apply c) l := by
  cases d <;> exact h.congr rfl rfl rfl

theorem reset (h : Walled c l) {c' : Cpu} (hreset : c.reset = some c') :
    Walled c' Ledger.empty := by
  unfold Cpu.reset at hreset
  simp only [Option.bind_eq_bind, Option.bind_eq_some_iff, Option.pure_def,
    Option.some.injEq] at hreset
  obtain ⟨mem, -, rfl⟩ := hreset
  exact of_empty h.ceiling (Nat.zero_le _) (Nat.zero_le _)

theorem loadProgram (h : Walled c l) {c' : Cpu} {code : List (BitVec 32)}
    (hload : c.loadProgram code = some c') : Walled c' Ledger.empty := by
  unfold Cpu.loadProgram at hload
  split at hload
  · cases hload
  · obtain rfl := Option.some.inj hload
    exact of_empty h.ceiling (Nat.zero_le _) (Nat.zero_le _)

theorem loadLinkedImage (h : Walled c l) (image : LinkedImage) (args : List String) :
    Walled (c.loadLinkedImageWithArgs p image args).1 Ledger.empty := by
  have hfresh : ∀ d : Cpu, d.maxTotalSteps = c.maxTotalSteps → d.refundStepsTotal = 0 →
      d.refundOutputTotal = 0 → Walled d Ledger.empty := by
    intro d hmax hsteps houtput
    refine of_empty (hmax ▸ h.ceiling) ?_ ?_
    · rw [hsteps]
      exact Nat.zero_le _
    · rw [houtput]
      exact Nat.zero_le _
  have henter : ∀ d : Cpu, (d.enterImage p image).maxTotalSteps = d.maxTotalSteps ∧
      (d.enterImage p image).refundStepsTotal = d.refundStepsTotal ∧
      (d.enterImage p image).refundOutputTotal = d.refundOutputTotal := by
    intro d
    unfold Cpu.enterImage
    simp only
    split <;> exact ⟨rfl, rfl, rfl⟩
  unfold Cpu.loadLinkedImageWithArgs
  simp only
  split
  · exact hfresh _ rfl rfl rfl
  · next mem _ =>
      obtain ⟨hmax, hsteps, houtput⟩ := henter (c.startImage.setMem mem)
      generalize (c.startImage.setMem mem).enterImage p image = d at hmax hsteps houtput ⊢
      split
      · exact hfresh _ hmax hsteps houtput
      · exact hfresh _ hmax hsteps houtput

theorem loadSections (h : Walled c l) (program : Program) :
    Walled (c.loadSections program).1 l := by
  unfold Cpu.loadSections
  split <;> exact h.congr rfl rfl rfl

/-- Every event keeps the session within the walls. -/
theorem event {s s' : Session} (h : Walled s.cpu l) {e : Event} (hhandle : s.handle p e = some s') :
    Walled s'.cpu (l.after p s e) := by
  cases e with
  | step =>
      obtain rfl := Option.some.inj hhandle
      exact h.step
  | runUntil maxSteps goal =>
      obtain rfl := Option.some.inj hhandle
      exact Ledger.watch_runUntil h (fun c l hc => hc.step) maxSteps goal
  | stepBack =>
      obtain rfl := Option.some.inj hhandle
      exact Ledger.after_stepBack h fun frame hnewest => h.stepBack hnewest
  | setSnapshotsPaused paused =>
      obtain rfl := Option.some.inj hhandle
      exact h.congr rfl rfl rfl
  | update u =>
      obtain rfl := Option.some.inj hhandle
      exact h.update u
  | drain d =>
      obtain rfl := Option.some.inj hhandle
      exact h.drain d
  | saveState name =>
      obtain rfl := Option.some.inj hhandle
      exact h
  | loadState name =>
      exact Ledger.after_loadState (motive := fun s l => Walled s.cpu l) hhandle h
        fun snap _ => h.restoreSaved snap
  | deleteState name =>
      obtain rfl := Option.some.inj hhandle
      exact h
  | reset =>
      simp only [Session.handle, Option.map_eq_some_iff] at hhandle
      obtain ⟨c', hreset, rfl⟩ := hhandle
      exact h.reset hreset
  | loadProgram code =>
      simp only [Session.handle, Option.map_eq_some_iff] at hhandle
      obtain ⟨c', hload, rfl⟩ := hhandle
      exact h.loadProgram hload
  | loadLinkedImage image args =>
      obtain rfl := Option.some.inj hhandle
      exact h.loadLinkedImage image args
  | loadSections program =>
      obtain rfl := Option.some.inj hhandle
      exact h.loadSections program
  | setBreakpoint addr =>
      obtain rfl := Option.some.inj hhandle
      exact h
  | clearBreakpoint addr =>
      obtain rfl := Option.some.inj hhandle
      exact h
  | clearAllBreakpoints =>
      obtain rfl := Option.some.inj hhandle
      exact h

end Walled

theorem walled_of_watched {p : Platform} {allowed : Session → Event → Prop} {s : Session}
    {l : Ledger} (h : Watched p allowed s l) : Walled s.cpu l := by
  induction h with
  | start hceiling => exact Walled.of_empty hceiling (Nat.zero_le _) (Nat.zero_le _)
  | event _ e _ hhandle ih => exact ih.event hhandle

/-- In every session a host gets to, counting from the last load or reset: the steps that
stand stay within the step wall and the lifetime refund, the bytes printed within the
output wall and its refund while the output wall is not breached, and loading a save
lowers neither counter. -/
theorem walls_hold (p : Platform) {s : Session} {l : Ledger}
    (h : Watched p (fun _ _ => True) s l) :
    (l.executed : Int) - l.undone ≤ s.cpu.maxTotalSteps + maxRefundSteps ∧
    (s.cpu.outputTotal ≤ maxOutputBytes →
      l.printed ≤ maxOutputBytes + maxRefundOutputBytes) ∧
    ∀ name s', s.handle p (.loadState name) = some s' →
      s.cpu.stepsTotal ≤ s'.cpu.stepsTotal ∧ s.cpu.outputTotal ≤ s'.cpu.outputTotal := by
  have hwalled := walled_of_watched h
  refine ⟨hwalled.net_le, fun houtput => ?_, fun name s' hload => ?_⟩
  · have hprinted := hwalled.printed
    have hrefund := hwalled.outputRefunded
    omega
  · simp only [Session.handle] at hload
    split at hload
    · next snap _ =>
        obtain rfl := Option.some.inj hload
        exact ⟨le_rfl, le_rfl⟩
    · obtain rfl := Option.some.inj hload
      exact ⟨le_rfl, le_rfl⟩

/-- A session that printed, slept, stepped back and restored a save, whose save is restored
once more. -/
theorem walls_hold_tour : ∃ s l, Watched Cpu.smallPlatform (fun _ _ => True) s l ∧
    (l.executed = 8 ∧ l.undone = 1 ∧ l.printed = 1) ∧
    (l.executed : Int) - l.undone ≤ s.cpu.maxTotalSteps + maxRefundSteps ∧
    l.printed ≤ maxOutputBytes + maxRefundOutputBytes ∧
    (s.named "paused").isSome = true ∧
    ∀ s', s.handle Cpu.smallPlatform (.loadState "paused") = some s' →
      s.cpu.stepsTotal ≤ s'.cpu.stepsTotal ∧ s.cpu.outputTotal ≤ s'.cpu.outputTotal := by
  have hends : ∃ w ∈ toured, (w.2.executed = 8 ∧ w.2.undone = 1 ∧ w.2.printed = 1) ∧
      w.1.cpu.outputTotal ≤ maxOutputBytes ∧ (w.1.named "paused").isSome = true := by
    decide +kernel
  obtain ⟨w, hw, hledger, houtput, hsaved⟩ := hends
  have hstart : Watched Cpu.smallPlatform (fun _ _ => True) (Session.start maxTotalSteps)
      Ledger.empty := .start (by decide)
  have hwatched := Watched.watchAll hstart (fun _ _ _ => trivial) hw
  obtain ⟨hsteps, hprinted, hload⟩ := walls_hold Cpu.smallPlatform hwatched
  exact ⟨w.1, w.2, hwatched, hledger, hsteps, hprinted houtput, hsaved, hload "paused"⟩

end Playground
