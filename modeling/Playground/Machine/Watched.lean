/-
A session as an observer sees it: how many steps were executed and undone, how many
bytes were printed, and the states that the steps not yet undone began in.
-/
import Playground.Machine.Session

namespace Playground

namespace Cpu

instance (c : Cpu) : Decidable c.Executes :=
  decidable_of_iff
    (c.halted = false ∧ c.blocked = false ∧ c.stepsTotal < c.maxTotalSteps ∧ stackFloor ≤ c.regs.sp)
    ⟨fun ⟨running, unblocked, budget, stack⟩ => ⟨running, unblocked, budget, stack⟩,
      fun h => ⟨h.running, h.unblocked, h.budget, h.stack⟩⟩

end Cpu

/-- What the observer notes. -/
structure Ledger where
  executed : Nat
  undone : Nat
  printed : Nat
  pending : List CpuState

namespace Ledger

def empty : Ledger := ⟨0, 0, 0, []⟩

/-- One call of `step` from `c`. -/
def afterStep (p : Platform) (c : Cpu) (l : Ledger) : Ledger :=
  if c.Executes then
    { l with
      executed := l.executed + 1
      printed := l.printed + (((c.step p).1.stdout.length - c.stdout.length) +
        ((c.step p).1.stderr.length - c.stderr.length))
      pending := c.state :: l.pending }
  else l

/-- The cpu and the ledger after one call of `step`. -/
def watchStep (p : Platform) (w : Cpu × Ledger) : Cpu × Ledger :=
  (w.1.stepped p, w.2.afterStep p w.1)

/-- The ledger after an event.  A restored save has no step to undo; a reset and the
load of a program start afresh. -/
def after (p : Platform) (s : Session) (l : Ledger) : Event → Ledger
  | .step => l.afterStep p s.cpu
  | .runUntil maxSteps goal =>
      ((watchStep p)^[(s.cpu.runUntil p s.breakpoints goal maxSteps).2.stepsExecuted]
        (s.cpu, l)).2
  | .stepBack =>
      match s.cpu.snapshots.newest with
      | some _ => { l with undone := l.undone + 1, pending := l.pending.tail }
      | none => l
  | .loadState name => if (s.named name).isSome then { l with pending := [] } else l
  | .reset => empty
  | .loadProgram _ => empty
  | .loadLinkedImage _ _ => empty
  | _ => l

end Ledger

/-- The sessions a host gets to through events that `allowed` permits, with their ledgers. -/
inductive Watched (p : Platform) (allowed : Session → Event → Prop) : Session → Ledger → Prop
  | start {ceiling : Nat} (h : ceiling < 2 ^ 64) :
      Watched p allowed (Session.start ceiling) Ledger.empty
  | event {s s' : Session} {l : Ledger} (h : Watched p allowed s l) (e : Event)
      (hallowed : allowed s e) (hhandle : s.handle p e = some s') :
      Watched p allowed s' (l.after p s e)

theorem Ledger.watchStep_iterate (p : Platform) (k : Nat) (c : Cpu) (l : Ledger) :
    ((Ledger.watchStep p)^[k] (c, l)).1 = (Cpu.stepped p)^[k] c := by
  induction k generalizing c l with
  | zero => rfl
  | succ k ih => exact ih (c.stepped p) (l.afterStep p c)

section Cases

variable {p : Platform} {s s' : Session} {l : Ledger} {name : String}

/-- A step back with no frame to undo changes nothing. -/
theorem Ledger.after_stepBack {motive : Cpu → Ledger → Prop} (h : motive s.cpu l)
    (hback : ∀ frame, s.cpu.snapshots.newest = some frame →
      motive s.cpu.stepBack.1 { l with undone := l.undone + 1, pending := l.pending.tail }) :
    motive s.cpu.stepBack.1 (l.after p s .stepBack) := by
  rw [Ledger.after]
  cases hnewest : s.cpu.snapshots.newest with
  | none => simpa only [Cpu.stepBack, hnewest] using h
  | some frame => exact hback frame hnewest

/-- A load of a name that has no save changes nothing. -/
theorem Ledger.after_loadState {motive : Session → Ledger → Prop}
    (hhandle : s.handle p (.loadState name) = some s') (h : motive s l)
    (hload : ∀ snap, s.named name = some snap →
      motive { s with cpu := s.cpu.restoreSaved snap } { l with pending := [] }) :
    motive s' (l.after p s (.loadState name)) := by
  rw [Ledger.after]
  cases hnamed : s.named name with
  | none =>
      simp only [Session.handle, hnamed, Option.some.injEq] at hhandle
      exact hhandle ▸ h
  | some snap =>
      simp only [Session.handle, hnamed, Option.some.injEq] at hhandle
      exact hhandle ▸ hload snap hnamed

/-- What holds of every save holds after one is made or deleted. -/
theorem Session.named_update {P : SavedState → Prop} {named : String → Option SavedState}
    (h : ∀ name snap, named name = some snap → P snap) {value : Option SavedState}
    (hvalue : ∀ snap ∈ value, P snap) (other : String) (snap : SavedState)
    (hsnap : Function.update named name value other = some snap) : P snap := by
  by_cases hname : other = name
  · subst hname
    rw [Function.update_self] at hsnap
    exact hvalue snap hsnap
  · rw [Function.update_of_ne hname] at hsnap
    exact h other snap hsnap

end Cases

/-- What every step keeps, a run keeps. -/
theorem Ledger.watch_runUntil {p : Platform} {motive : Cpu → Ledger → Prop} {s : Session}
    {l : Ledger} (h : motive s.cpu l)
    (hstep : ∀ c l, motive c l → motive (c.stepped p) (l.afterStep p c)) (maxSteps : Nat)
    (goal : Until) :
    motive (s.cpu.runUntil p s.breakpoints goal maxSteps).1
      (l.after p s (.runUntil maxSteps goal)) := by
  have hiterate : ∀ k (w : Cpu × Ledger), motive w.1 w.2 →
      motive ((Ledger.watchStep p)^[k] w).1 ((Ledger.watchStep p)^[k] w).2 := by
    intro k
    induction k with
    | zero => exact fun w hw => hw
    | succ k ih => exact fun w hw => ih _ (hstep w.1 w.2 hw)
  have hrun := hiterate (s.cpu.runUntil p s.breakpoints goal maxSteps).2.stepsExecuted (s.cpu, l) h
  rw [Ledger.watchStep_iterate, ← Cpu.runUntil_iterate] at hrun
  exact hrun

/-- A session and its ledger after several events. -/
def Session.watchAll (p : Platform) (events : List Event) (w : Session × Ledger) :
    Option (Session × Ledger) :=
  events.foldlM (fun w e => (w.1.handle p e).map fun s => (s, w.2.after p w.1 e)) w

theorem Watched.watchAll {p : Platform} {allowed : Session → Event → Prop}
    {events : List Event} {w w' : Session × Ledger} (h : Watched p allowed w.1 w.2)
    (hallowed : ∀ s, ∀ e ∈ events, allowed s e)
    (hrun : Session.watchAll p events w = some w') : Watched p allowed w'.1 w'.2 := by
  induction events generalizing w with
  | nil =>
      obtain rfl := Option.some.inj hrun
      exact h
  | cons e events ih =>
      obtain ⟨next, hnext, hrest⟩ := Option.bind_eq_some_iff.mp hrun
      obtain ⟨s, hs, rfl⟩ := Option.map_eq_some_iff.mp hnext
      exact ih (h.event e (hallowed _ e (by simp)) hs)
        (fun s e' he' => hallowed s e' (by simp [he'])) hrest

/-- Print a letter, take a block, sleep, store to the block. -/
def tourProgram : List (BitVec 32) :=
  [0x00010801, 0x00000006, 0x00180003, 0x00090801, 0x00000006, 0x00070101, 0x00000102]

/-- Two steps that print, one in a pause, a save, a step that sleeps, the save restored,
three steps and one undone. -/
def tourEvents : List Event :=
  [.loadProgram tourProgram, .step, .step, .setSnapshotsPaused true, .step,
    .setSnapshotsPaused false, .saveState "paused", .step, .step, .loadState "paused",
    .step, .step, .step, .stepBack]

/-- The session after `tourEvents`, with its ledger. -/
def toured : Option (Session × Ledger) :=
  Session.watchAll Cpu.smallPlatform tourEvents (Session.start maxTotalSteps, Ledger.empty)

end Playground
