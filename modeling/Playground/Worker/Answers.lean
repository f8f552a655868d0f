/-
Each request is answered once: never twice, and the worker's own steps come to an end with
every answer given.  How long that takes is bounded by the work there is.
-/
import Playground.Worker.Interleavings

namespace Playground

namespace Worker

/-- The steps of the system itself: all but a new request and a failure of the worker. -/
def Label.own : Label → Bool
  | .receive _ | .settle _ _ | .resume _ | .wake _ | .deliver => true
  | .send _ | .workerError _ => false

namespace System

variable {s s' : System}

/-- One step of the system itself. -/
def Own (s s' : System) : Prop := ∃ label : Label, label.own = true ∧ s.step label = some s'

/-- A run at its yield may post a snapshot and go on, a request may become a run. -/
def workTally : Tally where
  req req := 6 + 2 * req.kind.budget
  done _ := 2
  loop loop := 4 + 2 * loop.budgetLeft

def work (s : System) : Nat :=
  (s.inbox.map fun req => workTally.req req + 2).sum + workTally.sum s.worker +
    s.worker.outbox.length + s.worker.loading.length

/-- A handler that goes on leaves less work than its task was. -/
theorem work_handled {w w' : EmulatorWorker} {id : Nat} {fate : Fate} {events : List Event}
    (h : w.Handled w' id fate events) (bound : Nat) (hbound : 2 < bound)
    (hloops : ∀ next ∈ fate.loops, 5 + 2 * next.budgetLeft < bound) :
    workTally.sum w' + w'.outbox.length + w'.loading.length <
      workTally.sum w + w.outbox.length + w.loading.length + bound := by
  have houtbox := h.outbox
  rw [h.sum, h.loading]
  cases fate with
  | answered reply =>
      simp only [Fate.tasks, Fate.loops, Fate.posts, List.map_nil, List.sum_nil] at houtbox ⊢
      omega
  | finishing outcome =>
      simp only [Fate.tasks, Fate.loops, Fate.posts, List.map_cons, List.map_nil, List.sum_cons,
        List.sum_nil, Tally.task, workTally] at houtbox ⊢
      omega
  | yielding loop =>
      have hloop := hloops loop (List.mem_singleton_self loop)
      simp only [Fate.tasks, Fate.loops, Fate.posts, List.map_cons, List.map_nil, List.sum_cons,
        List.sum_nil, workTally] at houtbox ⊢
      omega

theorem work_resume (w : EmulatorWorker) (task : Task) (turn : Turn) :
    workTally.sum (w.resume task turn) + (w.resume task turn).outbox.length +
        (w.resume task turn).loading.length <
      workTally.sum w + w.outbox.length + w.loading.length + workTally.task task := by
  cases task with
  | go req loaded =>
      have htask : workTally.task (.go req loaded) = 6 + 2 * req.kind.budget := rfl
      obtain ⟨fate, events, h, hloops⟩ := EmulatorWorker.handled_resume w (.go req loaded) turn
      rw [htask]
      apply work_handled h _ (by omega)
      intro next hnext
      obtain ⟨-, req', loaded', heq, hbudget⟩ := hloops next hnext
      cases heq
      omega
  | finish id outcome =>
      have htask : workTally.task (.finish id outcome) = 2 := rfl
      obtain ⟨reply, h, -⟩ := EmulatorWorker.handled_finish w id outcome turn
      have hsum := h.sum (t := workTally)
      have houtbox := h.outbox
      simp only [Fate.tasks, Fate.loops, Fate.posts, List.map_nil, List.sum_nil] at hsum houtbox
      rw [h.loading, htask]
      omega

/-- Every step of the system itself uses up work. -/
theorem work_lt (hs : s.Sound) (h : Own s s') : s'.work < s.work := by
  obtain ⟨label, hown, hstep⟩ := h
  cases moves_of_step hstep with
  | send kind => cases hown
  | workerError message => cases hown
  | receive turn req inbox hready hinbox =>
      unfold work
      rw [hinbox]
      simp only [List.map_cons, List.sum_cons]
      rcases EmulatorWorker.onMessage_cases hs.loads req turn with
        ⟨reply, h, -, -, -⟩ | ⟨-, hkept⟩
      · have hsum : workTally.sum (s.worker.note (.received req)) = workTally.sum s.worker := rfl
        have houtbox : (s.worker.note (.received req)).outbox = s.worker.outbox := rfl
        have hloading : (s.worker.note (.received req)).loading = s.worker.loading := rfl
        have hless := work_handled h 3 (by omega) (by simp [Fate.loops])
        rw [hsum, houtbox, hloading] at hless
        have hpos : 6 ≤ workTally.req req := Nat.le_add_right _ _
        omega
      · have hloading := hkept.loading
        rw [hkept.sum, hkept.outbox]
        omega
  | settle number outcome load hload =>
      have hfewer : (s.worker.settle load outcome).loading.length < s.worker.loading.length := by
        have hfilter : (s.worker.loading.filter fun other =>
            other.number ≠ load.number).length < s.worker.loading.length :=
          List.length_filter_lt_length_iff_exists.mpr ⟨load, hload, by simp⟩
        rcases outcome with e | ⟨⟩
        · exact hfilter
        · exact hfilter
      have houtbox : (s.worker.settle load outcome).outbox = s.worker.outbox := by
        rcases outcome with e | ⟨⟩ <;> rfl
      unfold work
      simp only [EmulatorWorker.sum_settle hs.loads hload, houtbox]
      omega
  | resume turn task ready hready =>
      have htally : workTally.sum s.worker =
          workTally.sum { s.worker with ready := ready } + workTally.task task := by
        unfold Tally.sum
        rw [hready]
        simp only [List.map_cons, List.sum_cons, EmulatorWorker.waiting]
        omega
      have hless := work_resume { s.worker with ready := ready } task turn
      unfold work
      rw [htally]
      simp only at hless ⊢
      omega
  | wake turn loop yielding hready hyielding =>
      obtain ⟨fate, events, h, -, hloops⟩ := EmulatorWorker.handled_wake
        { s.worker with yielding := yielding } loop turn
      have htally : workTally.sum s.worker =
          workTally.sum { s.worker with yielding := yielding } + (4 + 2 * loop.budgetLeft) := by
        unfold Tally.sum
        rw [hyielding]
        simp only [List.map_cons, List.sum_cons, EmulatorWorker.waiting, workTally]
        omega
      have hless := work_handled h (4 + 2 * loop.budgetLeft) (by omega) (by
        intro next hnext
        have hbudget := (hloops next hnext).2
        omega)
      unfold work
      rw [htally]
      simp only at hless ⊢
      omega
  | deliver message outbox houtbox =>
      have hrest : ({ s with worker := { s.worker with outbox := outbox } }.onWorkerMessage
          message).worker = { s.worker with outbox := outbox } ∧
          ({ s with worker := { s.worker with outbox := outbox } }.onWorkerMessage
          message).inbox = s.inbox := by
        cases message with
        | heartbeat => exact ⟨rfl, rfl⟩
        | reply id reply =>
            unfold onWorkerMessage
            simp only
            split <;> exact ⟨rfl, rfl⟩
      unfold work
      rw [hrest.1, hrest.2, houtbox]
      have hsame : workTally.sum { s.worker with outbox := outbox } = workTally.sum s.worker := rfl
      rw [hsame, List.length_cons]
      simp only
      omega

/-- A turn in which nothing throws. -/
def quietTurn : Turn := ⟨.ok (), .ok .initial, .ok false, .ok (), 0, 0⟩

/-- Where the system cannot go on by itself, nothing is left to do. -/
theorem idle_of_stuck (h : ∀ s', ¬ Own s s') :
    s.inbox = [] ∧ s.worker.waiting = [] ∧ s.worker.ready = [] ∧ s.worker.yielding = [] ∧
      s.worker.outbox = [] := by
  have hready : s.worker.ready = [] := by
    rcases hlist : s.worker.ready with _ | ⟨task, ready⟩
    · rfl
    · exact absurd ⟨.resume quietTurn, rfl, by unfold step; rw [hlist]⟩ (h _)
  have hyielding : s.worker.yielding = [] := by
    rcases hlist : s.worker.yielding with _ | ⟨loop, yielding⟩
    · rfl
    · exact absurd ⟨.wake quietTurn, rfl, by unfold step; rw [hready, hlist]⟩ (h _)
  have hinbox : s.inbox = [] := by
    rcases hlist : s.inbox with _ | ⟨req, inbox⟩
    · rfl
    · exact absurd ⟨.receive quietTurn, rfl, by unfold step; rw [hready, hlist]⟩ (h _)
  have houtbox : s.worker.outbox = [] := by
    rcases hlist : s.worker.outbox with _ | ⟨message, outbox⟩
    · rfl
    · exact absurd ⟨.deliver, rfl, by unfold step; rw [hlist]⟩ (h _)
  have hloading : s.worker.loading = [] := by
    rcases hlist : s.worker.loading with _ | ⟨load, loading⟩
    · rfl
    · have hfind :
          s.worker.loading.find? (fun other => other.number = load.number) = some load := by
        rw [hlist]
        exact List.find?_cons_of_pos (by simp)
      exact absurd ⟨.settle load.number (.ok ()), rfl, by simp only [step, hfind]; rfl⟩ (h _)
  refine ⟨hinbox, ?_, hready, hyielding, houtbox⟩
  unfold EmulatorWorker.waiting
  rw [hloading]
  rfl

/-- No request is answered twice and no promise settled twice; the system's own steps come to
an end, and then every request sent has its answer, and its promise is settled. -/
structure AnsweredOnce (s : System) : Prop where
  atMost : ∀ id, (answersOf s.worker.log).count id ≤ 1 ∧ (s.settled.map Prod.fst).count id ≤ 1
  ends : Acc (fun s' s => Own s s') s
  answered : ∀ s', Relation.ReflTransGen Own s s' → (∀ s'', ¬ Own s' s'') →
    ∀ id, 1 ≤ id → id < s.nextId →
      (answersOf s'.worker.log).count id = 1 ∧ (s'.settled.map Prod.fst).count id = 1

theorem Sound.own (hs : s.Sound) (h : Own s s') : s'.Sound := by
  obtain ⟨label, -, hstep⟩ := h
  exact hs.step hstep

theorem nextId_own (h : Own s s') : s'.nextId = s.nextId := by
  obtain ⟨label, hown, hstep⟩ := h
  cases moves_of_step hstep with
  | send kind => cases hown
  | workerError message => cases hown
  | deliver message outbox houtbox =>
      cases message with
      | heartbeat => rfl
      | reply id reply =>
          unfold onWorkerMessage
          simp only
          split <;> rfl
  | _ => rfl

/-- The system's own steps come to an end. -/
theorem Sound.ends (hs : s.Sound) : Acc (fun s' s => Own s s') s := by
  generalize hwork : s.work = n
  induction n using Nat.strong_induction_on generalizing s with
  | _ n ih =>
      constructor
      intro s' h
      have hless := work_lt hs h
      rw [hwork] at hless
      exact ih s'.work hless (hs.own h) rfl

theorem sentOnce_le_one (nextId id : Nat) : sentOnce nextId id ≤ 1 := by
  unfold sentOnce
  split <;> omega

theorem Sound.answeredOnce (hs : s.Sound) : s.AnsweredOnce := by
  refine ⟨fun id => ?_, hs.ends, ?_⟩
  · have honce := hs.once id
    have hpromised := hs.promised id
    have hle := sentOnce_le_one s.nextId id
    unfold places at honce
    omega
  · intro s' hrun hstuck id hpos hsent
    have hboth : s'.Sound ∧ s'.nextId = s.nextId := by
      clear hstuck
      induction hrun with
      | refl => exact ⟨hs, rfl⟩
      | tail _ h ih => exact ⟨ih.1.own h, (nextId_own h).trans ih.2⟩
    obtain ⟨hs', hnext⟩ := hboth
    obtain ⟨hinbox, hwaiting, hready, hyielding, houtbox⟩ := idle_of_stuck hstuck
    have honce := hs'.once id
    have hpromised := hs'.promised id
    have hone : sentOnce s'.nextId id = 1 := if_pos ⟨hpos, by rw [hnext]; exact hsent⟩
    have hcount : (answersOf s'.worker.log).count id = 1 := by
      unfold places Tally.sum at honce
      rw [hinbox, hwaiting, hready, hyielding, hone] at honce
      simpa using honce
    refine ⟨hcount, ?_⟩
    by_cases hpending : id ∈ s'.pending
    · have hleft := hs'.undelivered id hpending
      rw [houtbox, hcount] at hleft
      cases hleft
    · have hzero := List.count_eq_zero_of_not_mem hpending
      omega

end System

end Worker

end Playground
