/-
Working off a list of tasks in passes.  An attempt at a task either succeeds, changing
the state, or leaves the task for the next pass.
-/
import Mathlib

namespace Worklist

variable {σ α : Type} (attempt : σ → α → Option σ)

/-- One pass from left to right: the state after it and the tasks it leaves. -/
def pass : σ → List α → σ × List α
  | s, [] => (s, [])
  | s, a :: tasks =>
      match attempt s a with
      | some s' => pass s' tasks
      | none => ((pass s tasks).1, a :: (pass s tasks).2)

def passes (n : Nat) (w : σ × List α) : σ × List α :=
  (fun w => pass attempt w.1 w.2)^[n] w

/-- What is left, in order, of the tasks at `n` places from place `i` on, once those at `done`
are. -/
inductive Left (task : Nat → Option α) (done : Nat → Prop) : Nat → Nat → List α → Prop
  | nil (i : Nat) : Left task done i 0 []
  | skip {i n : Nat} {tasks : List α} (h : task i = none ∨ done i)
      (hrest : Left task done (i + 1) n tasks) : Left task done i (n + 1) tasks
  | keep {i n : Nat} {a : α} {tasks : List α} (htask : task i = some a) (h : ¬ done i)
      (hrest : Left task done (i + 1) n tasks) : Left task done i (n + 1) (a :: tasks)

variable {attempt}

theorem pass_cons_some {s s' : σ} {a : α} {tasks : List α} (h : attempt s a = some s') :
    pass attempt s (a :: tasks) = pass attempt s' tasks := by
  simp [pass, h]

theorem pass_cons_none {s : σ} {a : α} {tasks : List α} (h : attempt s a = none) :
    pass attempt s (a :: tasks) =
      ((pass attempt s tasks).1, a :: (pass attempt s tasks).2) := by
  simp [pass, h]

theorem pass_sublist (s : σ) (tasks : List α) : (pass attempt s tasks).2.Sublist tasks := by
  induction tasks generalizing s with
  | nil => simp [pass]
  | cons a tasks ih =>
      cases h : attempt s a with
      | some s' =>
          rw [pass_cons_some h]
          exact (ih s').cons a
      | none =>
          rw [pass_cons_none h]
          exact (ih s).cons_cons a

/-- A pass that leaves every task has changed nothing. -/
theorem pass_eq_self {s : σ} {tasks : List α}
    (h : (pass attempt s tasks).2.length = tasks.length) : pass attempt s tasks = (s, tasks) := by
  induction tasks generalizing s with
  | nil => rfl
  | cons a tasks ih =>
      cases hstep : attempt s a with
      | some s' =>
          rw [pass_cons_some hstep] at h
          have hle : (pass attempt s' tasks).2.length ≤ tasks.length :=
            (pass_sublist s' tasks).length_le
          rw [List.length_cons] at h
          omega
      | none =>
          rw [pass_cons_none hstep] at h ⊢
          have hrest := ih (Nat.succ.inj h)
          rw [hrest]

theorem passes_succ (n : Nat) (w : σ × List α) :
    passes attempt (n + 1) w =
      pass attempt (passes attempt n w).1 (passes attempt n w).2 := by
  simp [passes, Function.iterate_succ_apply']

namespace Left

variable {task : Nat → Option α} {done done' : Nat → Prop} {i n : Nat} {tasks : List α}

/-- One place more. -/
theorem snoc_skip (h : Left task done i n tasks) (hlast : task (i + n) = none ∨ done (i + n)) :
    Left task done i (n + 1) tasks := by
  induction h with
  | nil i => exact .skip hlast (.nil _)
  | @skip i n tasks h hrest ih =>
      exact .skip h (ih (by rwa [Nat.add_right_comm, Nat.add_assoc]))
  | @keep i n a tasks htask h hrest ih =>
      exact .keep htask h (ih (by rwa [Nat.add_right_comm, Nat.add_assoc]))

theorem snoc_keep {a : α} (h : Left task done i n tasks) (htask : task (i + n) = some a)
    (hlast : ¬ done (i + n)) : Left task done i (n + 1) (tasks ++ [a]) := by
  induction h with
  | nil i => exact .keep htask hlast (.nil _)
  | @skip i n tasks h hrest ih =>
      exact .skip h (ih (by rwa [Nat.add_right_comm, Nat.add_assoc])
        (by rwa [Nat.add_right_comm, Nat.add_assoc]))
  | @keep i n b tasks hb h hrest ih =>
      exact .keep hb h (ih (by rwa [Nat.add_right_comm, Nat.add_assoc])
        (by rwa [Nat.add_right_comm, Nat.add_assoc]))

/-- What is left is a task, and a task that is not done is left. -/
theorem exists_task {a : α} (h : Left task done i n tasks) (ha : a ∈ tasks) :
    ∃ j, task j = some a := by
  induction h with
  | nil i => exact absurd ha List.not_mem_nil
  | skip h hrest ih => exact ih ha
  | @keep i n b tasks htask h hrest ih =>
      rcases List.mem_cons.mp ha with rfl | ha
      · exact ⟨i, htask⟩
      · exact ih ha

theorem mem_of_not_done {a : α} {j : Nat} (h : Left task done i n tasks) (hlow : i ≤ j)
    (hhigh : j < i + n) (htask : task j = some a) (hopen : ¬ done j) : a ∈ tasks := by
  induction h with
  | nil i => omega
  | @skip i n tasks h hrest ih =>
      rcases Nat.eq_or_lt_of_le hlow with rfl | hlt
      · rcases h with hnone | hdone
        · rw [htask] at hnone
          cases hnone
        · exact absurd hdone hopen
      · exact ih hlt (by omega)
  | @keep i n b tasks hb h hrest ih =>
      rcases Nat.eq_or_lt_of_le hlow with rfl | hlt
      · rw [htask] at hb
        cases hb
        exact List.mem_cons_self
      · exact List.mem_cons_of_mem _ (ih hlt (by omega))

/-- Nothing is left: every task is done. -/
theorem done_of_nil (h : Left task done i n []) {j : Nat} {a : α} (hlow : i ≤ j) (hhigh : j < i + n)
    (htask : task j = some a) : done j := by
  generalize hnil : ([] : List α) = tasks at h
  induction h with
  | nil i => omega
  | @skip i n tasks h hrest ih =>
      rcases Nat.eq_or_lt_of_le hlow with rfl | hlt
      · exact h.resolve_left (by rw [htask]; exact Option.some_ne_none a)
      · exact ih hlt (by omega) hnil
  | keep htask h hrest ih => cases hnil

theorem first_of_cons {a : α} (h : Left task done i n (a :: tasks)) :
    ∃ k, i ≤ k ∧ task k = some a ∧ ¬ done k ∧
      ∀ j b, i ≤ j → j < k → task j = some b → done j := by
  generalize hcons : a :: tasks = all at h
  induction h with
  | nil i => cases hcons
  | @skip i n tasks h hrest ih =>
      obtain ⟨k, hle, htask, hopen, hbefore⟩ := ih hcons
      refine ⟨k, by omega, htask, hopen, fun j b hlow hhigh hj => ?_⟩
      rcases Nat.eq_or_lt_of_le hlow with rfl | hlt
      · exact h.resolve_left (by rw [hj]; exact Option.some_ne_none b)
      · exact hbefore j b hlt hhigh hj
  | @keep i n b tasks htask h hrest ih =>
      cases hcons
      exact ⟨i, le_rfl, htask, h, fun j b hlow hhigh => by omega⟩

/-- A pass over what is left, place by place: with a state that is right at every place, what
a pass does is done and what it cannot do is left. -/
theorem pass_left (Inv : Nat → σ → Prop) {s : σ} (h : Left task done i n tasks) (hinv : Inv i s)
    (hdone : ∀ j, done j → done' j)
    (hskip : ∀ j s, Inv j s → task j = none ∨ done j → Inv (j + 1) s)
    (hturn : ∀ j s a, Inv j s → task j = some a → ¬ done j →
      (done' j ∧ ∃ s', attempt s a = some s' ∧ Inv (j + 1) s') ∨
      (¬ done' j ∧ attempt s a = none ∧ Inv (j + 1) s)) :
    Left task done' i n (pass attempt s tasks).2 ∧ Inv (i + n) (pass attempt s tasks).1 := by
  induction h generalizing s with
  | nil i => exact ⟨.nil i, hinv⟩
  | @skip i n tasks h hrest ih =>
      obtain ⟨hleft, hend⟩ := ih (hskip i s hinv h)
      refine ⟨.skip (h.imp_right (hdone i)) hleft, ?_⟩
      rwa [Nat.add_right_comm, Nat.add_assoc] at hend
  | @keep i n a tasks htask h hrest ih =>
      rcases hturn i s a hinv htask h with ⟨hdo, s', hattempt, hnext⟩ | ⟨hopen, hattempt, hnext⟩
      · obtain ⟨hleft, hend⟩ := ih hnext
        rw [pass_cons_some hattempt]
        refine ⟨.skip (.inr hdo) hleft, ?_⟩
        rwa [Nat.add_right_comm, Nat.add_assoc] at hend
      · obtain ⟨hleft, hend⟩ := ih hnext
        rw [pass_cons_none hattempt]
        refine ⟨.keep htask hopen hleft, ?_⟩
        rwa [Nat.add_right_comm, Nat.add_assoc] at hend

end Left

end Worklist
