/-
Running a program in calls of `runUntilBreak`.  However a run is split into calls it
visits one trajectory; and the calls stop at every breakpoint first, unless a sleep
ends a call early right on one.
-/
import Playground.Machine.Reachable
import Playground.Machine.StepEffects

namespace Playground

/-- Where `runUntil` stops besides a breakpoint, a halt, an input wait and a sleep. -/
structure Until where
  depth : Option Nat
  pc : Option Word

def Until.plain : Until := ⟨none, none⟩

def Until.isGoal (goal : Until) : Bool := goal.depth.isSome || goal.pc.isSome

/-- Result of a run (multiple steps). -/
structure RunResult where
  pc : Word
  halted : Bool
  stepsExecuted : Nat
  hitBreakpoint : Bool
  error : Option String
  reached : Bool
  badReturn : Bool
deriving DecidableEq, Repr

/-- How the loop of a run ended: at a breakpoint, with its goal or a stray `ret`, or
otherwise. -/
inductive RunStop
  | breakpoint
  | goal (reached badReturn : Bool)
  | other

namespace Cpu

variable (p : Platform) (breakpoints : Finset Word)

/-- Whether the goal is met, and whether a `ret` went to no caller. -/
def goalStop (c : Cpu) (goal : Until) (astray : Nat) : Bool × Bool :=
  let badReturn := decide (c.frames.badReturn.step ≠ astray)
  let shallow := match goal.depth with
    | some depth => decide (c.frames.depth ≤ depth) && c.inProgram c.regs.pc
    | none => false
  (!badReturn && (decide (goal.pc = some c.regs.pc) || shallow), badReturn)

/-- The loop of a run: `left` steps of the budget remain and `steps` were taken. -/
def runLoop (goal : Until) (astray : Nat) : Nat → Nat → Cpu → Cpu × Nat × RunStop
  | 0, steps, c => (c, steps, .other)
  | left + 1, steps, c =>
      if c.halted || c.blocked then (c, steps, .other)
      -- not on the very first step, so that a run can resume past a breakpoint
      else if 0 < steps ∧ c.regs.pc ∈ breakpoints then (c, steps, .breakpoint)
      else
        let (c, result) := c.step p
        let (reached, badReturn) :=
          if goal.isGoal && !c.halted then c.goalStop goal astray else (false, false)
        if reached || badReturn then (c, steps + 1, .goal reached badReturn)
        else
          match result.outcome with
          | .sleeping _ => (c, steps + 1, .other)
          | _ => runLoop goal astray left (steps + 1) c

/-- Run until a breakpoint, a halt, a stall, a sleep, the goal, or `maxSteps` steps. -/
def runUntil (goal : Until) (maxSteps : Nat) (c : Cpu) : Cpu × RunResult :=
  match c.runLoop p breakpoints goal c.frames.badReturn.step maxSteps 0 with
  | (c, steps, .breakpoint) => (c, ⟨c.regs.pc, false, steps, true, none, false, false⟩)
  | (c, steps, .goal reached badReturn) =>
      (c, ⟨c.regs.pc, c.halted, steps, false, if c.halted then c.abortMessage else none,
        reached, badReturn⟩)
  | (c, steps, .other) =>
      let atCap := decide (maxSteps ≤ steps) && !c.halted && !c.blocked
      (c, ⟨c.regs.pc, c.halted, steps, atCap && decide (c.regs.pc ∈ breakpoints),
        if c.halted then c.abortMessage else none, false, false⟩)

/-- Run until a breakpoint, a halt, an error, or `maxSteps` steps. -/
def runUntilBreak (maxSteps : Nat) (c : Cpu) : Cpu × RunResult :=
  c.runUntil p breakpoints .plain maxSteps

/-- The state after one call of `step`. -/
def stepped (c : Cpu) : Cpu := (c.step p).1

/-- The calls of a run split by `budgets`: where each began and what it returned. -/
def runCalls : List Nat → Cpu → List (Cpu × RunResult)
  | [], _ => []
  | maxSteps :: budgets, c =>
      let (c', result) := c.runUntilBreak p breakpoints maxSteps
      (c, result) :: runCalls budgets c'

/-- The steps a sequence of calls took. -/
def stepsOf (calls : List (Cpu × RunResult)) : Nat :=
  (calls.map fun call => call.2.stepsExecuted).sum

/-- The states a sequence of calls goes through, one for each step. -/
def visited (calls : List (Cpu × RunResult)) : List Cpu :=
  calls.flatMap fun call =>
    (List.range call.2.stepsExecuted).map fun i => (stepped p)^[i + 1] call.1

/-- A call executes at a breakpoint only as its first step, and then nothing was executed
before, or an earlier call stopped there and reported it. -/
def StopsFirst (calls : List (Cpu × RunResult)) : Prop :=
  ∀ before d result after, calls = before ++ (d, result) :: after →
    ∀ i < result.stepsExecuted, ((stepped p)^[i] d).regs.pc ∈ breakpoints →
      i = 0 ∧ (stepsOf before = 0 ∨ ∃ earlier call between, before = earlier ++ call :: between ∧
        stepsOf between = 0 ∧ call.2.hitBreakpoint = true ∧ call.2.pc = d.regs.pc)

variable {c : Cpu}

/-- Whatever its goal, a run takes some number of steps of the trajectory. -/
theorem runLoop_iterate (goal : Until) (astray left steps : Nat) (c : Cpu) : ∃ k stop,
    c.runLoop p breakpoints goal astray left steps = ((stepped p)^[k] c, steps + k, stop) := by
  induction left generalizing steps c with
  | zero => exact ⟨0, .other, rfl⟩
  | succ left ih =>
      unfold runLoop
      split
      · exact ⟨0, .other, rfl⟩
      split
      · exact ⟨0, .breakpoint, rfl⟩
      · simp only
        generalize (if (goal.isGoal && !(c.step p).1.halted) = true then
          (c.step p).1.goalStop goal astray else (false, false)) = flags
        split
        · exact ⟨1, .goal flags.1 flags.2, rfl⟩
        · split
          · exact ⟨1, .other, rfl⟩
          · obtain ⟨k, stop, hloop⟩ := ih (steps + 1) (c.step p).1
            refine ⟨k + 1, stop, ?_⟩
            rw [hloop, Function.iterate_succ_apply, Nat.add_assoc, Nat.add_comm 1 k]
            rfl

theorem runUntil_iterate (goal : Until) (maxSteps : Nat) (c : Cpu) :
    (c.runUntil p breakpoints goal maxSteps).1 =
      (stepped p)^[(c.runUntil p breakpoints goal maxSteps).2.stepsExecuted] c := by
  obtain ⟨k, stop, hloop⟩ :=
    runLoop_iterate p breakpoints goal c.frames.badReturn.step maxSteps 0 c
  unfold runUntil
  rw [hloop, Nat.zero_add]
  cases stop <;> rfl

/-- What the loop of a plain run did: `k` steps from `c`, none at a breakpoint except
perhaps the first of all, and why it ended. -/
structure LoopRun (left steps : Nat) (c : Cpu) (k : Nat) (stop : RunStop) : Prop where
  le : k ≤ left
  clear : ∀ i < k, 0 < steps + i → ((stepped p)^[i] c).regs.pc ∉ breakpoints
  noGoal : ∀ reached badReturn, stop ≠ .goal reached badReturn
  hit : stop = .breakpoint → ((stepped p)^[k] c).regs.pc ∈ breakpoints
  rest : stop = .other → k = left ∨ ¬ ((stepped p)^[k] c).Awake ∨
    ∃ i, k = i + 1 ∧ ((stepped p)^[i] c).Sleeps p

theorem awake_iff : c.Awake ↔ ¬ (c.halted || c.blocked) = true := by
  rw [Bool.not_eq_true, Bool.or_eq_false_iff]
  exact ⟨fun h => ⟨h.running, h.unblocked⟩, fun h => ⟨h.1, h.2⟩⟩

theorem runLoop_spec (astray left steps : Nat) (c : Cpu) : ∃ k stop,
    c.runLoop p breakpoints .plain astray left steps = ((stepped p)^[k] c, steps + k, stop) ∧
    LoopRun p breakpoints left steps c k stop := by
  induction left generalizing steps c with
  | zero =>
      exact ⟨0, .other, rfl, le_rfl, by simp, by simp, by simp, fun _ => Or.inl rfl⟩
  | succ left ih =>
      unfold runLoop
      split
      · next hstall =>
          refine ⟨0, .other, rfl, Nat.zero_le _, by simp, by simp, by simp, fun _ => ?_⟩
          exact Or.inr (Or.inl fun hawake => awake_iff.mp hawake hstall)
      split
      · next hbreak =>
          exact ⟨0, .breakpoint, rfl, Nat.zero_le _, by simp, by simp, fun _ => hbreak.2, by simp⟩
      · next hbreak =>
          have hfirst : 0 < steps → c.regs.pc ∉ breakpoints := fun hpos hmem => hbreak ⟨hpos, hmem⟩
          have hplain : Until.plain.isGoal = false := rfl
          simp only [hplain, Bool.false_and, Bool.or_self, Bool.false_eq_true, ↓reduceIte]
          split
          · next ns hsleep =>
              refine ⟨1, .other, rfl, by omega, ?_, by simp, by simp, fun _ => ?_⟩
              · intro i hi hpos
                obtain rfl : i = 0 := by omega
                exact hfirst hpos
              · exact Or.inr (Or.inr ⟨0, rfl, ns, hsleep⟩)
          · obtain ⟨k, stop, hloop, hrun⟩ := ih (steps + 1) (c.step p).1
            have hstop : (stepped p)^[k + 1] c = (stepped p)^[k] (c.step p).1 :=
              Function.iterate_succ_apply _ _ _
            refine ⟨k + 1, stop, ?_, by have := hrun.le; omega, ?_, hrun.noGoal, ?_, ?_⟩
            · rw [hloop, hstop, Nat.add_assoc, Nat.add_comm 1 k]
            · intro i hi hpos
              cases i with
              | zero => exact hfirst hpos
              | succ i =>
                  rw [Function.iterate_succ_apply]
                  exact hrun.clear i (by omega) (by omega)
            · intro hhit
              rw [hstop]
              exact hrun.hit hhit
            · intro hother
              rw [hstop]
              rcases hrun.rest hother with hleft | hstall | ⟨i, hi, hsleep⟩
              · exact Or.inl (by omega)
              · exact Or.inr (Or.inl hstall)
              · refine Or.inr (Or.inr ⟨i + 1, by omega, ?_⟩)
                rw [Function.iterate_succ_apply]
                exact hsleep

/-- What one call of `runUntilBreak` did. -/
structure CallSpec (c c' : Cpu) (result : RunResult) : Prop where
  stepped : c' = (stepped p)^[result.stepsExecuted] c
  pc : result.pc = c'.regs.pc
  clear : ∀ i < result.stepsExecuted, 0 < i → ((Cpu.stepped p)^[i] c).regs.pc ∉ breakpoints
  reported : c'.Awake → c'.regs.pc ∈ breakpoints → result.hitBreakpoint = true ∨
    ∃ i, result.stepsExecuted = i + 1 ∧ ((Cpu.stepped p)^[i] c).Sleeps p

theorem runUntilBreak_spec (maxSteps : Nat) (c : Cpu) :
    CallSpec p breakpoints c (c.runUntilBreak p breakpoints maxSteps).1
      (c.runUntilBreak p breakpoints maxSteps).2 := by
  obtain ⟨k, stop, hloop, hrun⟩ :=
    runLoop_spec p breakpoints c.frames.badReturn.step maxSteps 0 c
  have hclear : ∀ i < k, 0 < i → ((stepped p)^[i] c).regs.pc ∉ breakpoints :=
    fun i hi hpos => hrun.clear i hi (by omega)
  unfold runUntilBreak runUntil
  rw [hloop, Nat.zero_add]
  cases stop with
  | breakpoint => exact ⟨rfl, rfl, hclear, fun _ _ => Or.inl rfl⟩
  | goal reached badReturn => exact absurd rfl (hrun.noGoal reached badReturn)
  | other =>
      refine ⟨rfl, rfl, hclear, fun hawake hpc => ?_⟩
      rcases hrun.rest rfl with hleft | hstall | hsleep
      · subst hleft
        simp only at hawake hpc
        exact Or.inl (by simp [hawake.running, hawake.unblocked, hpc])
      · exact absurd hawake hstall
      · exact Or.inr hsleep

theorem stepsOf_append (calls calls' : List (Cpu × RunResult)) :
    stepsOf (calls ++ calls') = stepsOf calls + stepsOf calls' := by
  simp [stepsOf]

theorem stepsOf_cons (call : Cpu × RunResult) (calls : List (Cpu × RunResult)) :
    stepsOf (call :: calls) = call.2.stepsExecuted + stepsOf calls := by
  simp [stepsOf]

/-- Every call of a run begins on the trajectory, where the calls before it ended. -/
theorem runCalls_split {budgets : List Nat} {d : Cpu} {result : RunResult}
    {before after : List (Cpu × RunResult)}
    (h : runCalls p breakpoints budgets c = before ++ (d, result) :: after) :
    d = (stepped p)^[stepsOf before] c ∧
      ∃ maxSteps, result = (d.runUntilBreak p breakpoints maxSteps).2 := by
  induction budgets generalizing c before with
  | nil => simp [runCalls] at h
  | cons maxSteps budgets ih =>
      simp only [runCalls] at h
      have hspec := runUntilBreak_spec p breakpoints maxSteps c
      cases before with
      | nil =>
          simp only [List.nil_append, List.cons.injEq, Prod.mk.injEq] at h
          obtain ⟨⟨rfl, rfl⟩, -⟩ := h
          exact ⟨rfl, maxSteps, rfl⟩
      | cons call before =>
          simp only [List.cons_append, List.cons.injEq] at h
          obtain ⟨rfl, hrest⟩ := h
          obtain ⟨hd, hresult⟩ := ih hrest
          refine ⟨?_, hresult⟩
          rw [hd, hspec.stepped, ← Function.iterate_add_apply, stepsOf_cons, Nat.add_comm]

/-- However a run is split, it visits the trajectory of its start. -/
theorem visited_runCalls (budgets : List Nat) (c : Cpu) :
    visited p (runCalls p breakpoints budgets c) =
      (List.range (stepsOf (runCalls p breakpoints budgets c))).map
        fun i => (stepped p)^[i + 1] c := by
  induction budgets generalizing c with
  | nil => rfl
  | cons maxSteps budgets ih =>
      have hspec := runUntilBreak_spec p breakpoints maxSteps c
      simp only [runCalls]
      generalize c.runUntilBreak p breakpoints maxSteps = r at hspec ⊢
      obtain ⟨c', result⟩ := r
      have hnext := ih c'
      unfold visited at hnext ⊢
      rw [List.flatMap_cons, hnext, stepsOf_cons, List.range_add, List.map_append, List.map_map]
      congr 1
      apply List.map_congr_left
      intro i _
      have hend : c' = (stepped p)^[result.stepsExecuted] c := hspec.stepped
      have hindex : result.stepsExecuted + i + 1 = i + 1 + result.stepsExecuted := by omega
      rw [Function.comp_apply, hend, ← Function.iterate_add_apply, hindex]

theorem awake_of_stepsExecuted {maxSteps : Nat}
    (h : 0 < (c.runUntilBreak p breakpoints maxSteps).2.stepsExecuted) : c.Awake := by
  rw [awake_iff]
  intro hstall
  have hloop : c.runLoop p breakpoints .plain c.frames.badReturn.step maxSteps 0 =
      (c, 0, .other) := by
    cases maxSteps with
    | zero => rfl
    | succ left => simp only [runLoop, hstall, ↓reduceIte]
  simp [runUntilBreak, runUntil, hloop] at h

/-- Where the calls of a run stand on a breakpoint, the last of them to take a step has
reported it, provided no sleeping step leads onto a breakpoint. -/
theorem reported_of_clear {budgets : List Nat} {before after : List (Cpu × RunResult)}
    (hclear : ∀ i, ((stepped p)^[i] c).Sleeps p →
      ((stepped p)^[i + 1] c).regs.pc ∉ breakpoints)
    (h : runCalls p breakpoints budgets c = before ++ after)
    (hawake : ((stepped p)^[stepsOf before] c).Awake)
    (hpc : ((stepped p)^[stepsOf before] c).regs.pc ∈ breakpoints) :
    stepsOf before = 0 ∨ ∃ earlier call between, before = earlier ++ call :: between ∧
      stepsOf between = 0 ∧ call.2.hitBreakpoint = true ∧
      call.2.pc = ((stepped p)^[stepsOf before] c).regs.pc := by
  rcases List.eq_nil_or_concat before with rfl | ⟨before, call, rfl⟩
  · exact Or.inl rfl
  · obtain ⟨d, result⟩ := call
    rw [List.concat_eq_append] at *
    rw [List.append_assoc, List.singleton_append] at h
    obtain ⟨hd, maxSteps, hresult⟩ := runCalls_split p breakpoints h
    have hspec := runUntilBreak_spec p breakpoints maxSteps d
    rw [← hresult] at hspec
    generalize (d.runUntilBreak p breakpoints maxSteps).1 = d' at hspec
    have hsum : stepsOf (before ++ [(d, result)]) = stepsOf before + result.stepsExecuted := by
      simp [stepsOf]
    have hend : (stepped p)^[stepsOf (before ++ [(d, result)])] c = d' := by
      rw [hsum, Nat.add_comm, Function.iterate_add_apply, ← hd]
      exact hspec.stepped.symm
    rw [hend] at hawake hpc ⊢
    rcases hspec.reported hawake hpc with hhit | ⟨i, hi, hsleep⟩
    · exact Or.inr ⟨before, (d, result), [], by simp, rfl, hhit, hspec.pc⟩
    · -- the step that ended this call slept: it does not lead onto a breakpoint
      rw [hd, ← Function.iterate_add_apply] at hsleep
      have hnot := hclear _ hsleep
      have hindex : i + stepsOf before + 1 = stepsOf (before ++ [(d, result)]) := by
        omega
      rw [hindex, hend] at hnot
      exact absurd hpc hnot

theorem stopsFirst_of_clear (hclear : ∀ i, ((stepped p)^[i] c).Sleeps p →
      ((stepped p)^[i + 1] c).regs.pc ∉ breakpoints) (budgets : List Nat) :
    StopsFirst p breakpoints (runCalls p breakpoints budgets c) := by
  intro before d result after h i hi hpc
  obtain ⟨hd, maxSteps, rfl⟩ := runCalls_split p breakpoints h
  have hspec := runUntilBreak_spec p breakpoints maxSteps d
  obtain rfl : i = 0 := by
    by_contra hne
    exact hspec.clear i hi (Nat.pos_of_ne_zero hne) hpc
  have hawake : d.Awake := awake_of_stepsExecuted p breakpoints hi
  refine ⟨rfl, ?_⟩
  rw [hd] at hawake hpc ⊢
  exact reported_of_clear p breakpoints hclear h hawake hpc

/-- A call with one step of budget takes it. -/
theorem runUntilBreak_one (h : c.Awake) : (c.runUntilBreak p breakpoints 1).1 = stepped p c ∧
    (c.runUntilBreak p breakpoints 1).2.stepsExecuted = 1 := by
  have hplain : Until.plain.isGoal = false := rfl
  have hloop : c.runLoop p breakpoints .plain c.frames.badReturn.step 1 0 =
      (stepped p c, 1, .other) := by
    simp only [runLoop, if_neg (awake_iff.mp h), lt_irrefl, false_and, hplain, Bool.false_and,
      Bool.or_self, Bool.false_eq_true, ↓reduceIte, Nat.zero_add]
    split <;> rfl
  simp [runUntilBreak, runUntil, hloop]

/-- A call that a sleep ends with budget left reports no breakpoint. -/
theorem runUntilBreak_sleep (h : c.Sleeps p) : (c.runUntilBreak p breakpoints 2).1 = stepped p c ∧
    (c.runUntilBreak p breakpoints 2).2.stepsExecuted = 1 ∧
    (c.runUntilBreak p breakpoints 2).2.hitBreakpoint = false := by
  have hplain : Until.plain.isGoal = false := rfl
  have hexec := h.executes
  have hawake : c.Awake := ⟨hexec.running, hexec.unblocked⟩
  obtain ⟨ns, hsleep⟩ := h
  have hloop : c.runLoop p breakpoints .plain c.frames.badReturn.step 2 0 =
      (stepped p c, 1, .other) := by
    simp only [runLoop, if_neg (awake_iff.mp hawake), lt_irrefl, false_and, hplain,
      Bool.false_and, Bool.or_self, Bool.false_eq_true, ↓reduceIte, Nat.zero_add, hsleep]
    rfl
  simp [runUntilBreak, runUntil, hloop]

/-- A stalled cpu stays as it is. -/
theorem awake_of_stepped (h : (stepped p c).Awake) : c.Awake := by
  by_contra hstall
  have hexec : (c.prepared.executeStep p).1 = c.prepared := by
    have hflags : ¬ c.halted = false ∨ ¬ c.blocked = false := by
      rw [← not_and_or]
      exact fun hflags => hstall ⟨hflags.1, hflags.2⟩
    unfold executeStep
    split
    · rfl
    · next hhalted =>
        have hblocked : c.prepared.blocked = true := by
          rcases hflags with hflag | hflag
          · exact absurd (eq_false_of_ne_true hhalted) hflag
          · exact eq_true_of_ne_false hflag
        rw [if_pos hblocked]
  have hsame : SameSide c (stepped p c) := by
    unfold stepped
    rw [step_eq, hexec]
    exact (SameSide.prepared c).trans (SameSide.stepTail p _ _ _)
  rw [hsame.side] at h
  exact hstall ⟨h.running, h.unblocked⟩

theorem awake_of_iterate {i j : Nat} (hle : i ≤ j)
    (h : ((stepped p)^[j] c).Awake) : ((stepped p)^[i] c).Awake := by
  induction j, hle using Nat.le_induction with
  | base => exact h
  | succ j _ ih =>
      rw [Function.iterate_succ_apply'] at h
      exact ih (awake_of_stepped p h)

theorem runCalls_ones (n : Nat) (budgets : List Nat)
    (h : ∀ i < n, ((stepped p)^[i] c).Awake) : ∃ calls, stepsOf calls = n ∧
      runCalls p breakpoints (List.replicate n 1 ++ budgets) c =
        calls ++ runCalls p breakpoints budgets ((stepped p)^[n] c) := by
  induction n generalizing c with
  | zero => exact ⟨[], rfl, rfl⟩
  | succ n ih =>
      have hfirst : c.Awake := h 0 (Nat.succ_pos n)
      obtain ⟨hcpu, hsteps⟩ := runUntilBreak_one p breakpoints hfirst
      obtain ⟨calls, hcalls, hrun⟩ := ih (c := stepped p c) fun i hi => by
        have hnext := h (i + 1) (by omega)
        rwa [Function.iterate_succ_apply] at hnext
      refine ⟨(c, (c.runUntilBreak p breakpoints 1).2) :: calls, ?_, ?_⟩
      · rw [stepsOf_cons, hcalls, hsteps, Nat.add_comm]
      · simp only [List.replicate_succ, List.cons_append, runCalls, hcpu, hrun,
          Function.iterate_succ_apply]

/-- A sleep right before a breakpoint lets some splitting of the run step past it. -/
theorem clear_of_stopsFirst
    (h : ∀ budgets, StopsFirst p breakpoints (runCalls p breakpoints budgets c)) (i : Nat)
    (hsleep : ((stepped p)^[i] c).Sleeps p) :
    ((stepped p)^[i + 1] c).regs.pc ∉ breakpoints := by
  intro hpc
  have hexec := hsleep.executes
  have hawake : ∀ j < i, ((stepped p)^[j] c).Awake := fun j hj =>
    awake_of_iterate p hj.le ⟨hexec.running, hexec.unblocked⟩
  obtain ⟨calls, hcalls, hrun⟩ := runCalls_ones p breakpoints i [2, 1] hawake
  obtain ⟨hslept, hsteps, hquiet⟩ := runUntilBreak_sleep p breakpoints hsleep
  have hnext := hsleep.next_awake
  rw [Function.iterate_succ_apply'] at hpc
  generalize (stepped p)^[i] c = e at *
  obtain ⟨-, hone⟩ := runUntilBreak_one p breakpoints (c := stepped p e) hnext
  have hsplit : runCalls p breakpoints (List.replicate i 1 ++ [2, 1]) c =
      (calls ++ [(e, (e.runUntilBreak p breakpoints 2).2)]) ++
        (stepped p e, ((stepped p e).runUntilBreak p breakpoints 1).2) :: [] := by
    rw [hrun, List.append_assoc]
    simp only [runCalls, hslept, List.singleton_append]
  obtain ⟨-, hstart | ⟨earlier, call, between, hbefore, hnone, hhit, -⟩⟩ :=
    h _ _ _ _ _ hsplit 0 (by omega) hpc
  · rw [stepsOf_append, stepsOf_cons] at hstart
    simp only at hstart
    omega
  · rcases List.eq_nil_or_concat between with rfl | ⟨between, last, rfl⟩
    · obtain ⟨-, hcall⟩ := List.append_inj' hbefore rfl
      simp only [List.cons.injEq, and_true] at hcall
      rw [← hcall, hquiet] at hhit
      cases hhit
    · rw [List.concat_eq_append, ← List.cons_append, ← List.append_assoc] at hbefore
      obtain ⟨-, hcall⟩ := List.append_inj' hbefore rfl
      simp only [List.cons.injEq, and_true] at hcall
      rw [List.concat_eq_append, stepsOf_append, stepsOf_cons, ← hcall] at hnone
      simp only at hnone
      omega

/-- Any splitting of a run into calls of `runUntilBreak` visits the one trajectory of its
start; and every splitting stops first at each breakpoint it comes to exactly when no
step that sleeps leads onto one. -/
theorem runCalls_sound_iff (c : Cpu) :
    (∀ budgets, visited p (runCalls p breakpoints budgets c) =
        (List.range (stepsOf (runCalls p breakpoints budgets c))).map
          (fun i => (stepped p)^[i + 1] c) ∧
      StopsFirst p breakpoints (runCalls p breakpoints budgets c)) ↔
    ∀ i, ((stepped p)^[i] c).Sleeps p → ((stepped p)^[i + 1] c).regs.pc ∉ breakpoints := by
  constructor
  · exact fun h => clear_of_stopsFirst p breakpoints fun budgets => (h budgets).2
  · intro hclear budgets
    exact ⟨visited_runCalls p breakpoints budgets c,
      stopsFirst_of_clear p breakpoints hclear budgets⟩

/-- A platform whose one library function sleeps for a millisecond. -/
def sleepPlatform : Platform :=
  { nopPlatform with
    host := ⟨[("sleeper", fun side _ _ => .done (side, .ok (.sleep 1000000)))]⟩ }

/-- The cpu at the entry of the sleeping function, to return to `codeBase`. -/
def atSleeper (c : Cpu) : Cpu :=
  c.setRegs ((c.regs.writePc hostStubBase).writeGpr 30 true codeBase)

theorem atSleeper_sleeps : fresh.atSleeper.Sleeps sleepPlatform :=
  ⟨1000000, by decide⟩

/-- From the entry of a sleeping function with a breakpoint on its return address, two
calls step past the breakpoint. -/
theorem not_runCalls_sound_sleeper :
    ¬ ∀ budgets, visited sleepPlatform
        (runCalls sleepPlatform {codeBase} budgets fresh.atSleeper) =
        (List.range (stepsOf (runCalls sleepPlatform {codeBase} budgets fresh.atSleeper))).map
          (fun i => (stepped sleepPlatform)^[i + 1] fresh.atSleeper) ∧
      StopsFirst sleepPlatform {codeBase}
        (runCalls sleepPlatform {codeBase} budgets fresh.atSleeper) := by
  intro h
  have hpc : (stepped sleepPlatform fresh.atSleeper).regs.pc = codeBase := by decide
  exact clear_of_stopsFirst sleepPlatform {codeBase} (fun budgets => (h budgets).2) 0
    atSleeper_sleeps (Finset.mem_singleton.mpr hpc)

end Cpu

end Playground
