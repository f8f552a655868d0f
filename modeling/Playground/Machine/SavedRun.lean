/-
A named save against the state it was taken in: what a host sees of a program from there
on, step by step, run by run and input by input.  A restored save behaves as the saved
state did, if the image that is loaded when it is restored is still the one it was saved
under, the program has begun (or not) as it had then, and no abort had been reported.
-/
import Playground.Machine.Twins
import Playground.Machine.Watched

namespace Playground

/-- What a host does with a program that is loaded. -/
inductive Action
  | step
  | run (goal : Until) (maxSteps : Nat)
  | input (u : HostUpdate)

/-- What such a call returns. -/
inductive Report
  | step (result : StepResult)
  | run (result : RunResult)
  | taken
deriving DecidableEq

/-- What a host sees after a call: registers, memory, the call stack, the bytes the call
printed, and its result with the halt reason and message. -/
structure Seen where
  regs : RegisterState
  pages : Pages
  zeroFill : List (Word × Word)
  frames : CallStack
  stdout : List Byte
  stderr : List Byte
  report : Report

namespace Cpu

variable (p : Platform) (breakpoints : Finset Word)

def perform (c : Cpu) : Action → Cpu × Report
  | .step => ((c.step p).1, .step (c.step p).2)
  | .run goal maxSteps =>
      let (c, result) := c.runUntil p breakpoints goal maxSteps
      (c, .run result)
  | .input u => (u.apply c, .taken)

/-- What is seen when a call takes the cpu from `c` to `c'`. -/
def seen (c c' : Cpu) (report : Report) : Seen where
  regs := c'.regs.toRegisterState
  pages := c'.mem.pages
  zeroFill := c'.mem.zeroFill
  frames := c'.frames
  stdout := c'.stdout.drop c.stdout.length
  stderr := c'.stderr.drop c.stderr.length
  report := report

/-- What is seen of a sequence of calls, one after another. -/
def observe (c : Cpu) : List Action → List Seen
  | [] => []
  | action :: actions =>
      let (c', report) := c.perform p breakpoints action
      c.seen c' report :: observe c' actions

/-- The steps a call takes. -/
def stepsIn (c : Cpu) : Action → Nat
  | .step => 1
  | .run goal maxSteps => (c.runUntil p breakpoints goal maxSteps).2.stepsExecuted
  | .input _ => 0

/-- No step of the calls meets the step or the output budget. -/
def Within (c : Cpu) : List Action → Prop
  | [] => True
  | action :: actions =>
      (∀ k < c.stepsIn p breakpoints action, ¬ ((stepped p)^[k] c).MeetsBudget p) ∧
      Within (c.perform p breakpoints action).1 actions

/-- The twins went on to `d` and `d'`, which are twins, and printed the same. -/
structure Together (c c' d d' : Cpu) : Prop where
  twins : Twins d d'
  stdout : ∃ out, d.stdout = c.stdout ++ out ∧ d'.stdout = c'.stdout ++ out
  stderr : ∃ out, d.stderr = c.stderr ++ out ∧ d'.stderr = c'.stderr ++ out

namespace Together

variable {c c' d d' e e' : Cpu}

theorem still (h : Twins c c') : Together c c' c c' :=
  ⟨h, Twins.nothing_printed _ _, Twins.nothing_printed _ _⟩

theorem trans (first : Together c c' d d') (second : Together d d' e e') :
    Together c c' e e' := by
  obtain ⟨out, hout, hout'⟩ := first.stdout
  obtain ⟨err, herr, herr'⟩ := first.stderr
  obtain ⟨out₁, hout₁, hout₁'⟩ := second.stdout
  obtain ⟨err₁, herr₁, herr₁'⟩ := second.stderr
  refine ⟨second.twins, ⟨out ++ out₁, ?_, ?_⟩, ⟨err ++ err₁, ?_, ?_⟩⟩
  · rw [hout₁, hout, List.append_assoc]
  · rw [hout₁', hout', List.append_assoc]
  · rw [herr₁, herr, List.append_assoc]
  · rw [herr₁', herr', List.append_assoc]

theorem seen_eq (h : Together c c' d d') (report : Report) :
    c'.seen d' report = c.seen d report := by
  obtain ⟨out, hout, hout'⟩ := h.stdout
  obtain ⟨err, herr, herr'⟩ := h.stderr
  have hregs : d'.regs.toRegisterState = d.regs.toRegisterState := h.twins.regs
  have hpages : d'.mem.pages = d.mem.pages := h.twins.mem.pages
  have hzero : d'.mem.zeroFill = d.mem.zeroFill := h.twins.mem.zeroFill
  unfold seen
  rw [hregs, hpages, hzero, h.twins.frames, hout, hout', herr, herr', List.drop_left,
    List.drop_left, List.drop_left, List.drop_left]

end Together

namespace Twins

variable {c c' : Cpu}

/-- A change of the small state between steps. -/
theorem map (h : Twins c c') (f : Copied → Copied)
    (hf : ∀ n, f { c.toCopied with stepsTotal := n } = { f c.toCopied with
      stepsTotal := (f { c.toCopied with stepsTotal := n }).stepsTotal })
    (hsteps : ∀ a, (f a).stepsTotal = a.stepsTotal) :
    Twins { c with toCopied := f c.toCopied } { c' with toCopied := f c'.toCopied } := by
  refine ⟨h.regs, h.mem, h.heap, h.copied.map f hf, h.frames, h.abort, h.image, ?_⟩
  unfold Unstepped
  simp only [hsteps]
  exact h.unstepped

theorem queueStdin (h : Twins c c') (bytes : List Byte) (interactive : Bool) :
    Twins (c.queueStdin bytes interactive) (c'.queueStdin bytes interactive) :=
  h.map (fun a => { a with
    stdin := a.stdin ++ bytes
    stdinSegments := if bytes.isEmpty then a.stdinSegments
      else a.stdinSegments ++ [⟨bytes, 0, interactive, false⟩]
    blocked := false }) (fun _ => rfl) fun _ => rfl

theorem closeStdin (h : Twins c c') : Twins c.closeStdin c'.closeStdin := by
  by_cases hfresh : c.stepsTotal = 0 ∧ c.refundStepsTotal = 0
  · have hfresh' : c'.stepsTotal = 0 ∧ c'.refundStepsTotal = 0 := h.unstepped.mpr hfresh
    unfold Cpu.closeStdin
    rw [if_pos hfresh, if_pos hfresh']
    exact h.map (fun a => { a with
      term := { a.term with stdinIsFile := true }, stdinClosed := true, blocked := false })
      (fun _ => rfl) fun _ => rfl
  · have hfresh' : ¬ (c'.stepsTotal = 0 ∧ c'.refundStepsTotal = 0) := fun hfresh' =>
      hfresh (h.unstepped.mp hfresh')
    unfold Cpu.closeStdin
    rw [if_neg hfresh, if_neg hfresh']
    exact h.map (fun a => { a with stdinClosed := true, blocked := false }) (fun _ => rfl)
      fun _ => rfl

theorem uploadVfsFile (h : Twins c c') (path : String) (data : List Byte) :
    Twins (c.uploadVfsFile path data).1 (c'.uploadVfsFile path data).1 := by
  have hvfs : c'.vfs = c.vfs := congrArg (·.vfs) h.copied
  unfold Cpu.uploadVfsFile
  simp only [hvfs]
  split
  · exact h
  split
  · exact h
  split
  · exact h
  · exact h.map (fun a => { a with vfs := insertFile c.vfs path data }) (fun _ => rfl)
      fun _ => rfl

theorem update (h : Twins c c') (u : HostUpdate) : Twins (u.apply c) (u.apply c') := by
  cases u with
  | pushStdin bytes => exact h.queueStdin bytes false
  | pushStdinInteractive bytes => exact h.queueStdin bytes true
  | closeStdin => exact h.closeStdin
  | uploadVfsFile path data => exact h.uploadVfsFile path data
  | deleteVfsFile path =>
      exact h.map (fun a => { a with vfs := a.vfs.filter fun file => file.1 != path })
        (fun _ => rfl) fun _ => rfl

theorem goalStop (h : Twins c c') (goal : Until) (astray : Nat) :
    c'.goalStop goal astray = c.goalStop goal astray := by
  have hpc : c'.regs.pc = c.regs.pc := h.regs.pc
  have htext : c'.textEnd = c.textEnd := congrArg (·.1) h.image
  have hinside : c'.inProgram c.regs.pc = c.inProgram c.regs.pc := by
    unfold Cpu.inProgram
    rw [htext]
  unfold Cpu.goalStop
  simp only [h.frames, hpc, hinside]

/-- One step of each, both within budget. -/
theorem stepped (h : Twins c c') (hp : p.Blind) (hwithin : ¬ c.MeetsBudget p)
    (hwithin' : ¬ c'.MeetsBudget p) :
    Together c c' (c.step p).1 (c'.step p).1 ∧ (c'.step p).2 = (c.step p).2 := by
  obtain ⟨htwins, hresult, hout, herr⟩ := h.step p hp hwithin hwithin'
  exact ⟨⟨htwins, hout, herr⟩, hresult⟩

end Twins

/-- Input prints nothing. -/
theorem update_output (c : Cpu) (u : HostUpdate) :
    (u.apply c).stdout = c.stdout ∧ (u.apply c).stderr = c.stderr := by
  cases u with
  | uploadVfsFile path data =>
      simp only [HostUpdate.apply, uploadVfsFile]
      split
      · exact ⟨rfl, rfl⟩
      split
      · exact ⟨rfl, rfl⟩
      split
      · exact ⟨rfl, rfl⟩
      · exact ⟨rfl, rfl⟩
  | _ => exact ⟨rfl, rfl⟩

/-- A loop that does not stop at once takes a step. -/
theorem lt_runLoop {c : Cpu} {goal : Until} {astray left steps : Nat}
    (hstop : ¬ (c.halted || c.blocked) = true) (hbreak : ¬ (0 < steps ∧ c.regs.pc ∈ breakpoints)) :
    steps < (c.runLoop p breakpoints goal astray (left + 1) steps).2.1 := by
  rw [runLoop, if_neg hstop, if_neg hbreak]
  simp only
  generalize (if (goal.isGoal && !(c.step p).1.halted) = true then
    (c.step p).1.goalStop goal astray else (false, false)) = flags
  split
  · exact Nat.lt_succ_self steps
  split
  · exact Nat.lt_succ_self steps
  · obtain ⟨k, stop, hloop⟩ :=
      runLoop_iterate p breakpoints goal astray left (steps + 1) (c.step p).1
    rw [hloop]
    change steps < steps + 1 + k
    omega

namespace Twins

variable {c c' : Cpu}

/-- The loops of two runs take the same steps and stop for the same reason. -/
theorem runLoop (h : Twins c c') (hp : p.Blind) (goal : Until) (astray left steps : Nat)
    (hwithin : ∀ k, steps + k < (c.runLoop p breakpoints goal astray left steps).2.1 →
      ¬ ((Cpu.stepped p)^[k] c).MeetsBudget p)
    (hwithin' : ∀ k, steps + k < (c'.runLoop p breakpoints goal astray left steps).2.1 →
      ¬ ((Cpu.stepped p)^[k] c').MeetsBudget p) :
    Together c c' (c.runLoop p breakpoints goal astray left steps).1
      (c'.runLoop p breakpoints goal astray left steps).1 ∧
    (c'.runLoop p breakpoints goal astray left steps).2 =
      (c.runLoop p breakpoints goal astray left steps).2 := by
  induction left generalizing steps c c' with
  | zero => exact ⟨.still h, rfl⟩
  | succ left ih =>
      have hpc : c'.regs.pc = c.regs.pc := h.regs.pc
      have hstops : (c'.halted || c'.blocked) = (c.halted || c.blocked) := by
        rw [show c'.halted = c.halted from congrArg (·.halted) h.copied,
          show c'.blocked = c.blocked from congrArg (·.blocked) h.copied]
      by_cases hstop : (c.halted || c.blocked) = true
      · rw [Cpu.runLoop, Cpu.runLoop, if_pos hstop, if_pos (hstops.trans hstop)]
        exact ⟨.still h, rfl⟩
      have hstop' : ¬ (c'.halted || c'.blocked) = true := by
        rw [hstops]
        exact hstop
      by_cases hbreak : 0 < steps ∧ c.regs.pc ∈ breakpoints
      · rw [Cpu.runLoop, Cpu.runLoop, if_neg hstop, if_neg hstop', hpc, if_pos hbreak,
          if_pos hbreak]
        exact ⟨.still h, rfl⟩
      have hbreak' : ¬ (0 < steps ∧ c'.regs.pc ∈ breakpoints) := by
        rw [hpc]
        exact hbreak
      have hmeets := hwithin 0 (lt_runLoop p breakpoints hstop hbreak)
      have hmeets' := hwithin' 0 (lt_runLoop p breakpoints hstop' hbreak')
      obtain ⟨hstepped, hresult⟩ := h.stepped p hp hmeets hmeets'
      have hgoal : ∀ d d' : Cpu, Twins d d' →
          (if (goal.isGoal && !d'.halted) = true then d'.goalStop goal astray else (false, false)) =
          if (goal.isGoal && !d.halted) = true then d.goalStop goal astray else (false, false) := by
        intro d d' hd
        rw [hd.goalStop, show d'.halted = d.halted from congrArg (·.halted) hd.copied]
      rw [Cpu.runLoop, if_neg hstop, if_neg hbreak] at hwithin ⊢
      rw [Cpu.runLoop, if_neg hstop', if_neg hbreak'] at hwithin' ⊢
      simp only [hresult, hgoal _ _ hstepped.twins] at hwithin hwithin' ⊢
      generalize (if (goal.isGoal && !(c.step p).1.halted) = true then
        (c.step p).1.goalStop goal astray else (false, false)) = flags at hwithin hwithin' ⊢
      split
      · exact ⟨hstepped, rfl⟩
      next hgoing =>
      rw [if_neg hgoing] at hwithin hwithin'
      -- past a step that neither slept nor met the goal, the loops go on from twins
      have hrest : (∀ k, steps + k <
            ((c.step p).1.runLoop p breakpoints goal astray left (steps + 1)).2.1 →
            ¬ ((Cpu.stepped p)^[k] c).MeetsBudget p) →
          (∀ k, steps + k <
            ((c'.step p).1.runLoop p breakpoints goal astray left (steps + 1)).2.1 →
            ¬ ((Cpu.stepped p)^[k] c').MeetsBudget p) →
          Together c c' ((c.step p).1.runLoop p breakpoints goal astray left (steps + 1)).1
            ((c'.step p).1.runLoop p breakpoints goal astray left (steps + 1)).1 ∧
          ((c'.step p).1.runLoop p breakpoints goal astray left (steps + 1)).2 =
            ((c.step p).1.runLoop p breakpoints goal astray left (steps + 1)).2 := by
        intro hleft hleft'
        obtain ⟨htogether, hends⟩ := ih hstepped.twins (steps + 1)
          (fun k hk => hleft (k + 1) (by omega)) (fun k hk => hleft' (k + 1) (by omega))
        exact ⟨hstepped.trans htogether, hends⟩
      generalize (c.step p).2.outcome = outcome at hwithin hwithin' ⊢
      cases outcome with
      | sleeping ns => exact ⟨hstepped, rfl⟩
      | advance => exact hrest hwithin hwithin'
      | halted => exact hrest hwithin hwithin'
      | waitingForInput => exact hrest hwithin hwithin'
      | exited code => exact hrest hwithin hwithin'

/-- A run from twins: the same result, the same output, and twins again. -/
theorem runUntil (h : Twins c c') (hp : p.Blind) (goal : Until) (maxSteps : Nat)
    (hwithin : ∀ k < (c.runUntil p breakpoints goal maxSteps).2.stepsExecuted,
      ¬ ((Cpu.stepped p)^[k] c).MeetsBudget p)
    (hwithin' : ∀ k < (c'.runUntil p breakpoints goal maxSteps).2.stepsExecuted,
      ¬ ((Cpu.stepped p)^[k] c').MeetsBudget p) :
    Together c c' (c.runUntil p breakpoints goal maxSteps).1
      (c'.runUntil p breakpoints goal maxSteps).1 ∧
    (c'.runUntil p breakpoints goal maxSteps).2 = (c.runUntil p breakpoints goal maxSteps).2 := by
  have hcount : ∀ d : Cpu, (d.runUntil p breakpoints goal maxSteps).2.stepsExecuted =
      (d.runLoop p breakpoints goal d.frames.badReturn.step maxSteps 0).2.1 := by
    intro d
    unfold Cpu.runUntil
    rcases d.runLoop p breakpoints goal d.frames.badReturn.step maxSteps 0 with ⟨e, n, _ | _ | _⟩
    · rfl
    · rfl
    · rfl
  rw [hcount] at hwithin hwithin'
  rw [h.frames] at hwithin'
  have hloop := h.runLoop p breakpoints hp goal c.frames.badReturn.step maxSteps 0
    (fun k hk => hwithin k (by omega)) (fun k hk => hwithin' k (by omega))
  unfold Cpu.runUntil
  rw [h.frames]
  generalize c.runLoop p breakpoints goal c.frames.badReturn.step maxSteps 0 = ended at hloop ⊢
  generalize c'.runLoop p breakpoints goal c.frames.badReturn.step maxSteps 0 = ended' at hloop ⊢
  obtain ⟨d, n, stop⟩ := ended
  obtain ⟨d', n', stop'⟩ := ended'
  obtain ⟨htogether, hends⟩ := hloop
  obtain ⟨rfl, rfl⟩ := Prod.mk.inj hends
  have hpc : d'.regs.pc = d.regs.pc := htogether.twins.regs.pc
  have hhalted : d'.halted = d.halted := congrArg (·.halted) htogether.twins.copied
  have hblocked : d'.blocked = d.blocked := congrArg (·.blocked) htogether.twins.copied
  have habort : d'.abortMessage = d.abortMessage := htogether.twins.abort
  cases stop' with
  | breakpoint => exact ⟨htogether, by simp only [hpc]⟩
  | goal reached badReturn => exact ⟨htogether, by simp only [hpc, hhalted, habort]⟩
  | other => exact ⟨htogether, by simp only [hpc, hhalted, hblocked, habort]⟩

/-- One call of the host on twins. -/
theorem perform (h : Twins c c') (hp : p.Blind) (action : Action)
    (hwithin : ∀ k < c.stepsIn p breakpoints action, ¬ ((Cpu.stepped p)^[k] c).MeetsBudget p)
    (hwithin' : ∀ k < c'.stepsIn p breakpoints action,
      ¬ ((Cpu.stepped p)^[k] c').MeetsBudget p) :
    Together c c' (c.perform p breakpoints action).1 (c'.perform p breakpoints action).1 ∧
      (c'.perform p breakpoints action).2 = (c.perform p breakpoints action).2 := by
  cases action with
  | step =>
      obtain ⟨htogether, hresult⟩ := h.stepped p hp (hwithin 0 Nat.one_pos)
        (hwithin' 0 Nat.one_pos)
      exact ⟨htogether, congrArg Report.step hresult⟩
  | run goal maxSteps =>
      obtain ⟨htogether, hresult⟩ := h.runUntil p breakpoints hp goal maxSteps hwithin hwithin'
      exact ⟨htogether, congrArg Report.run hresult⟩
  | input u =>
      obtain ⟨hout, herr⟩ := update_output c u
      obtain ⟨hout', herr'⟩ := update_output c' u
      refine ⟨⟨h.update u, ?_, ?_⟩, rfl⟩
      · rw [show ((c.perform p breakpoints (.input u)).1).stdout = c.stdout from hout,
          show ((c'.perform p breakpoints (.input u)).1).stdout = c'.stdout from hout']
        exact nothing_printed _ _
      · rw [show ((c.perform p breakpoints (.input u)).1).stderr = c.stderr from herr,
          show ((c'.perform p breakpoints (.input u)).1).stderr = c'.stderr from herr']
        exact nothing_printed _ _

/-- Twins are seen alike, whatever the host does. -/
theorem observe_eq (h : Twins c c') (hp : p.Blind) (actions : List Action)
    (hwithin : c.Within p breakpoints actions) (hwithin' : c'.Within p breakpoints actions) :
    c'.observe p breakpoints actions = c.observe p breakpoints actions := by
  induction actions generalizing c c' with
  | nil => rfl
  | cons action actions ih =>
      obtain ⟨hnow, hlater⟩ := hwithin
      obtain ⟨hnow', hlater'⟩ := hwithin'
      obtain ⟨htogether, hreport⟩ := h.perform p breakpoints hp action hnow hnow'
      have hrest := ih htogether.twins hlater hlater'
      unfold Cpu.observe
      simp only [hreport, hrest, htogether.seen_eq]

end Twins

/-- A save taken in `c` restores in full over `d`: the image loaded is the one it was taken
under, the program has begun if it had begun then, and no abort had been reported. -/
structure Restorable (c d : Cpu) : Prop where
  image : d.image = c.image
  unstepped : d.Unstepped ↔ c.Unstepped
  abort : c.abortMessage = none

theorem twins_restoreSaved {c d : Cpu} (h : Restorable c d) :
    Twins c (d.restoreSaved c.savedState) :=
  ⟨rfl, Memory.Alike.refl _, rfl, rfl, rfl, h.abort.symm, h.image, h.unstepped⟩

end Cpu

namespace Session

/-- The session after a sequence of events. -/
def handleAll (p : Platform) (s : Session) (events : List Event) : Option Session :=
  events.foldlM (handle p) s

/-- The event leaves the save under `name` in place. -/
def Spares (name : String) (e : Event) : Prop := e ≠ .saveState name ∧ e ≠ .deleteState name

theorem named_handle {p : Platform} {s s' : Session} {name : String} {e : Event}
    (hspares : Spares name e) (h : s.handle p e = some s') : s'.named name = s.named name := by
  cases e with
  | saveState other =>
      obtain rfl := Option.some.inj h
      have hne : name ≠ other := fun heq => hspares.1 (by rw [heq])
      exact Function.update_of_ne hne _ _
  | deleteState other =>
      obtain rfl := Option.some.inj h
      have hne : name ≠ other := fun heq => hspares.2 (by rw [heq])
      exact Function.update_of_ne hne _ _
  | loadState other =>
      simp only [handle] at h
      split at h
      · obtain rfl := Option.some.inj h
        rfl
      · obtain rfl := Option.some.inj h
        rfl
  | reset =>
      simp only [handle, Option.map_eq_some_iff] at h
      obtain ⟨c, -, rfl⟩ := h
      rfl
  | loadProgram code =>
      simp only [handle, Option.map_eq_some_iff] at h
      obtain ⟨c, -, rfl⟩ := h
      rfl
  | _ =>
      obtain rfl := Option.some.inj h
      rfl

theorem named_handleAll {p : Platform} {s s' : Session} {name : String} {events : List Event}
    (hspares : ∀ e ∈ events, Spares name e) (h : s.handleAll p events = some s') :
    s'.named name = s.named name := by
  induction events generalizing s with
  | nil =>
      obtain rfl := Option.some.inj h
      rfl
  | cons e events ih =>
      simp only [handleAll, List.foldlM_cons, Option.bind_eq_bind, Option.bind_eq_some_iff] at h
      obtain ⟨s₁, hfirst, hrest⟩ := h
      have hkept := ih (fun e he => hspares e (List.mem_cons_of_mem _ he)) hrest
      exact hkept.trans (named_handle (hspares e List.mem_cons_self) hfirst)

end Session

/-- A restored save behaves as the state it was taken in: the registers, memory, the call
stack, the output and the results of every sequence of steps, runs and inputs are the same,
as long as neither side meets a budget. -/
theorem loadState_behaves (p : Platform) (hp : p.Blind) {s saved t restored : Session}
    {name : String} {events : List Event} (hsave : s.handle p (.saveState name) = some saved)
    (hevents : saved.handleAll p events = some t) (hspares : ∀ e ∈ events, Session.Spares name e)
    (hload : t.handle p (.loadState name) = some restored)
    (hrestorable : Cpu.Restorable s.cpu t.cpu) (breakpoints : Finset Word) (actions : List Action)
    (hwithin : s.cpu.Within p breakpoints actions)
    (hwithin' : restored.cpu.Within p breakpoints actions) :
    restored.cpu.observe p breakpoints actions = s.cpu.observe p breakpoints actions := by
  have hnamed := Session.named_handleAll hspares hevents
  obtain rfl := Option.some.inj hsave
  simp only [Function.update_self] at hnamed
  simp only [Session.handle, hnamed, Option.some.injEq] at hload
  subst hload
  exact (Cpu.twins_restoreSaved hrestorable).observe_eq p breakpoints hp actions hwithin hwithin'

namespace Cpu

instance (c : Cpu) : Decidable c.Unstepped :=
  inferInstanceAs (Decidable (c.stepsTotal = 0 ∧ c.refundStepsTotal = 0))

instance (p : Platform) (c : Cpu) : Decidable (c.MeetsBudget p) :=
  inferInstanceAs (Decidable (_ ∨ _))

instance decidableWithin (p : Platform) (breakpoints : Finset Word) :
    ∀ (c : Cpu) (actions : List Action), Decidable (c.Within p breakpoints actions)
  | _, [] => isTrue trivial
  | c, action :: actions =>
      have := decidableWithin p breakpoints (c.perform p breakpoints action).1 actions
      inferInstanceAs (Decidable (_ ∧ _))

theorem blind_nopPlatform : nopPlatform.Blind := by
  refine ⟨fun instr m m' hm => rfl, fun entry hentry => (by cases hentry), ?_⟩
  intro number s s' closed m m' hs hm
  exact ⟨⟨hs, Twins.nothing_printed _ _, Twins.nothing_printed _ _⟩, rfl⟩

end Cpu

/-- A program of `n` instructions, all `nop`. -/
def nops (n : Nat) : List (BitVec 32) := List.replicate n 0xD503201F

/-- A new machine with a program of `nop`s loaded. -/
def nopCpu (n : Nat) : Cpu :=
  ((Session.start maxTotalSteps).cpu.loadProgram (nops n)).getD (Session.start maxTotalSteps).cpu

/-- The same program in memory that holds nothing else. -/
def bareNops (n : Nat) : Cpu :=
  ((Cpu.fresh.setMem Memory.new).loadProgram (nops n)).getD (Cpu.fresh.setMem Memory.new)

def stepCloseStep : List Action := [.step, .input .closeStdin, .step]

theorem exists_restorable : ∃ s : Session, s.cpu.Restorable (s.cpu.step Cpu.nopPlatform).1 ∧
    s.cpu.Within Cpu.nopPlatform ∅ stepCloseStep ∧
    ((s.cpu.step Cpu.nopPlatform).1.restoreSaved s.cpu.savedState).Within Cpu.nopPlatform ∅
      stepCloseStep :=
  ⟨{ Session.start maxTotalSteps with cpu := ((bareNops 4).step Cpu.nopPlatform).1 },
    ⟨by decide, by decide, by decide⟩, by decide,
    by decide⟩

/-- Saved after a step, restored after the next. -/
theorem loadState_behaves_nop : ∃ s saved t restored : Session,
    s.handle Cpu.nopPlatform (.saveState "a") = some saved ∧
    saved.handleAll Cpu.nopPlatform [.step] = some t ∧
    t.handle Cpu.nopPlatform (.loadState "a") = some restored ∧
    restored.cpu.observe Cpu.nopPlatform ∅ stepCloseStep =
      s.cpu.observe Cpu.nopPlatform ∅ stepCloseStep := by
  obtain ⟨s, hrestorable, hwithin, hwithin'⟩ := exists_restorable
  let saved : Session := { s with named := Function.update s.named "a" s.cpu.savedState }
  let t : Session := { saved with cpu := (s.cpu.step Cpu.nopPlatform).1 }
  let restored : Session := { t with cpu := t.cpu.restoreSaved s.cpu.savedState }
  have hsave : s.handle Cpu.nopPlatform (.saveState "a") = some saved := rfl
  have hevents : saved.handleAll Cpu.nopPlatform [.step] = some t := rfl
  have hspares : ∀ e ∈ [Event.step], Session.Spares "a" e := by simp [Session.Spares]
  have hload : t.handle Cpu.nopPlatform (.loadState "a") = some restored := by
    simp [Session.handle, t, saved, restored]
  exact ⟨s, saved, t, restored, hsave, hevents, hload, loadState_behaves Cpu.nopPlatform
    Cpu.blind_nopPlatform hsave hevents hspares hload hrestorable ∅ stepCloseStep hwithin hwithin'⟩

/-- Two steps, the second past the end of a program of one instruction. -/
def stepStep : List Action := [.step, .step]

/-- What the save of a shorter program does over a longer one. -/
theorem nopCpu_longer :
    ((Session.start maxTotalSteps).cpu.loadProgram (nops 1)).isSome = true ∧
    (nopCpu 1).textEnd.isSome = true ∧ ((nopCpu 1).loadProgram (nops 2)).isSome = true ∧
    (nopCpu 1).Within Cpu.nopPlatform ∅ stepStep ∧
    ∀ d ∈ (nopCpu 1).loadProgram (nops 2),
      (d.restoreSaved (nopCpu 1).savedState).Within Cpu.nopPlatform ∅ stepStep ∧
      ((d.restoreSaved (nopCpu 1).savedState).observe Cpu.nopPlatform ∅ stepStep).map
        Seen.report ≠ ((nopCpu 1).observe Cpu.nopPlatform ∅ stepStep).map Seen.report := by
  decide +kernel

/-- A program of one `nop` is saved, one of two is loaded, and the save restored: its second
step no longer runs past the end, but into what memory holds there. -/
theorem not_loadState_behaves : ∃ (s saved t restored : Session) (l : Ledger)
    (events : List Event), Cpu.nopPlatform.Blind ∧
    Watched Cpu.nopPlatform (fun _ _ => True) s l ∧ s.cpu.textEnd.isSome = true ∧
    s.handle Cpu.nopPlatform (.saveState "a") = some saved ∧
    saved.handleAll Cpu.nopPlatform events = some t ∧
    (∀ e ∈ events, Session.Spares "a" e) ∧
    t.handle Cpu.nopPlatform (.loadState "a") = some restored ∧
    s.cpu.Within Cpu.nopPlatform ∅ stepStep ∧ restored.cpu.Within Cpu.nopPlatform ∅ stepStep ∧
    restored.cpu.observe Cpu.nopPlatform ∅ stepStep ≠
      s.cpu.observe Cpu.nopPlatform ∅ stepStep := by
  obtain ⟨hloads, htext, hlonger, hwithin, hdiffers⟩ := nopCpu_longer
  have hload : (Session.start maxTotalSteps).cpu.loadProgram (nops 1) = some (nopCpu 1) := by
    obtain ⟨c, hc⟩ := Option.isSome_iff_exists.mp hloads
    rw [nopCpu, hc, Option.getD_some]
  obtain ⟨d, hd⟩ := Option.isSome_iff_exists.mp hlonger
  obtain ⟨hwithin', hdiffer⟩ := hdiffers d hd
  generalize nopCpu 1 = c at *
  have hstart : Watched Cpu.nopPlatform (fun _ _ => True) (Session.start maxTotalSteps)
      Ledger.empty := .start (by decide)
  let s : Session := { Session.start maxTotalSteps with cpu := c }
  let saved : Session := { s with named := Function.update s.named "a" c.savedState }
  let t : Session := { saved with cpu := d }
  let restored : Session := { t with cpu := d.restoreSaved c.savedState }
  have hhandle : (Session.start maxTotalSteps).handle Cpu.nopPlatform (.loadProgram (nops 1)) =
      some s := by
    simp only [Session.handle, hload, Option.map_some, s]
  have hevents : saved.handleAll Cpu.nopPlatform [.loadProgram (nops 2)] = some t := by
    simp only [Session.handleAll, List.foldlM_cons, List.foldlM_nil, Session.handle, saved, s, hd,
      Option.map_some, Option.bind_eq_bind, Option.bind_some, t, Option.pure_def]
  have hrestore : t.handle Cpu.nopPlatform (.loadState "a") = some restored := by
    simp only [Session.handle, t, saved, Function.update_self, restored]
  refine ⟨s, saved, t, restored, _, [.loadProgram (nops 2)], Cpu.blind_nopPlatform,
    hstart.event _ trivial hhandle, htext, rfl, hevents, ?_, hrestore, hwithin, hwithin', ?_⟩
  · simp [Session.Spares]
  · exact fun hsame => hdiffer (congrArg (List.map Seen.report) hsame)

end Playground
