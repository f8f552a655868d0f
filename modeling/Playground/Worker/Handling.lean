/-
What one handler does to the worker when it goes on: it leaves its request answered, at the
end of its run loop, or back at the yield, and touches nothing of another request.
-/
import Playground.Worker.Handler

namespace Playground

namespace Worker

/-- The request an event is about. -/
def Event.id : Event → Nat
  | .received req => req.id
  | .carriedOut id | .began id | .chunk id _ | .woke id | .ended id | .replied id _ => id

def Task.id : Task → Nat
  | .go req _ => req.id
  | .finish id _ => id

/-- The requests answered, in order. -/
def answersOf (log : List Event) : List Nat :=
  log.filterMap fun
    | .replied id _ => some id
    | _ => none

@[simp]
theorem answersOf_append (log log' : List Event) :
    answersOf (log ++ log') = answersOf log ++ answersOf log' := List.filterMap_append

/-- The requests received, in order. -/
def receivedIds (log : List Event) : List Nat :=
  log.filterMap fun
    | .received req => some req.id
    | _ => none

@[simp]
theorem receivedIds_append (log log' : List Event) :
    receivedIds (log ++ log') = receivedIds log ++ receivedIds log' := List.filterMap_append

/-- The requests whose answers are on their way. -/
def repliesIn (outbox : List WorkerMessage) : List Nat :=
  outbox.filterMap fun
    | .reply id _ => some id
    | .heartbeat => none

@[simp]
theorem repliesIn_append (outbox outbox' : List WorkerMessage) :
    repliesIn (outbox ++ outbox') = repliesIn outbox ++ repliesIn outbox' := List.filterMap_append

def RequestKind.budget : RequestKind → Nat
  | .runUntilBreak maxSteps => maxSteps
  | _ => 0

def RunLoop.budgetLeft (loop : RunLoop) : Nat := loop.maxSteps - loop.totalSteps

/-- Where a handler leaves its request. -/
inductive Fate
  | answered (reply : Reply)
  | finishing (outcome : Except Thrown RunResult)
  | yielding (loop : RunLoop)

namespace Fate

def tasks (id : Nat) : Fate → List Task
  | .finishing outcome => [.finish id outcome]
  | _ => []

def loops : Fate → List RunLoop
  | .yielding loop => [loop]
  | _ => []

def answers (id : Nat) : Fate → List Nat
  | .answered _ => [id]
  | _ => []

/-- The messages it may post. -/
def posts : Fate → Nat
  | .finishing _ => 0
  | _ => 1

end Fate

namespace EmulatorWorker

variable {w w' : EmulatorWorker} {id : Nat} {fate : Fate} {events : List Event}

/-- A handler went on for one request. -/
structure Handled (w w' : EmulatorWorker) (id : Nat) (fate : Fate) (events : List Event) :
    Prop where
  log : w'.log = w.log ++ events
  about : ∀ e ∈ events, e.id = id
  loading : w'.loading = w.loading
  loads : w'.loads = w.loads
  runEpoch : w'.runEpoch = w.runEpoch
  ready : w'.ready = w.ready ++ fate.tasks id
  yielding : w'.yielding = w.yielding ++ fate.loops
  own : ∀ loop ∈ fate.loops, loop.id = id
  answers : answersOf events = fate.answers id
  received : receivedIds events = []
  outbox : w'.outbox.length ≤ w.outbox.length + fate.posts
  posted : repliesIn w'.outbox = repliesIn w.outbox ++ fate.answers id
  /-- Only a run that begins takes a pause back. -/
  pausing : w.pauseRequested = true → (∀ other, .began other ∉ events) →
    w'.pauseRequested = true

/-- What was noted before a handler went on. -/
theorem Handled.noted {e : Event} (h : (w.note e).Handled w' id fate events) (he : e.id = id)
    (hanswers : answersOf [e] = []) (hreceived : receivedIds [e] = []) :
    w.Handled w' id fate (e :: events) := by
  have hpausing : w.pauseRequested = true → (∀ other, .began other ∉ e :: events) →
      w'.pauseRequested = true := fun hpause hbegan =>
    h.pausing hpause fun other hmem => hbegan other (List.mem_cons_of_mem e hmem)
  have hlog : w'.log = w.log ++ e :: events := by
    rw [h.log]
    simp [note]
  have habout : ∀ e' ∈ e :: events, e'.id = id := by
    intro e' he'
    rcases List.mem_cons.mp he' with rfl | he'
    · exact he
    · exact h.about e' he'
  have hall : answersOf (e :: events) = fate.answers id := by
    rw [← List.singleton_append, answersOf_append, hanswers, h.answers]
    rfl
  have hnone : receivedIds (e :: events) = [] := by
    rw [← List.singleton_append, receivedIds_append, hreceived, h.received]
    rfl
  exact ⟨hlog, habout, h.loading, h.loads, h.runEpoch, h.ready, h.yielding, h.own, hall, hnone,
    h.outbox, h.posted, hpausing⟩

theorem handled_answer (w : EmulatorWorker) (id : Nat) (reply : Reply) :
    w.Handled (w.answer id reply) id (.answered reply) [.replied id reply] :=
  ⟨rfl, by simp [Event.id], rfl, rfl, rfl, by simp [answer, Fate.tasks],
    by simp [answer, Fate.loops], by simp [Fate.loops], rfl, rfl, by simp [answer, Fate.posts],
    repliesIn_append _ _, fun h _ => h⟩

theorem handled_fail (w : EmulatorWorker) (id : Nat) (e : Thrown) :
    w.Handled (w.fail id e) id (.answered (.error e.message)) [.replied id (.error e.message)] := by
  unfold fail
  split
  · exact ⟨rfl, by simp [Event.id], rfl, rfl, rfl, by simp [answer, Fate.tasks],
      by simp [answer, Fate.loops], by simp [Fate.loops], rfl, rfl, by simp [answer, Fate.posts],
    repliesIn_append _ _, fun h _ => h⟩
  · exact handled_answer w id _

theorem handled_answerSnapshot (w : EmulatorWorker) (id : Nat) (reply : Reply)
    (snapshot : Except Thrown Unit) : ∃ reply', w.Handled (w.answerSnapshot id reply snapshot) id
      (.answered reply') [.replied id reply'] ∧ (snapshot.isOk = true → reply' = reply) := by
  unfold answerSnapshot
  rcases snapshot with e | ⟨⟩
  · exact ⟨_, handled_fail w id e, nofun⟩
  · exact ⟨_, handled_answer w id reply, fun _ => rfl⟩

/-- The end of a run's handler answers it, with the result of its loop if nothing throws. -/
theorem handled_finish (w : EmulatorWorker) (id : Nat) (outcome : Except Thrown RunResult)
    (turn : Turn) : ∃ reply, w.Handled (w.resume (.finish id outcome) turn) id (.answered reply)
      [.replied id reply] ∧
      ∀ result, outcome = .ok result → turn.snapshot.isOk = true → reply = .run result := by
  rcases outcome with e | result
  · exact ⟨_, handled_fail w id e, nofun⟩
  · obtain ⟨reply, h, hreply⟩ := handled_answerSnapshot w id (.run result) turn.snapshot
    exact ⟨reply, h, fun other hother hok => Except.ok.inj hother ▸ hreply hok⟩

/-- A run loop is left. -/
theorem handled_leaveLoop (w : EmulatorWorker) (id : Nat) (outcome : Except Thrown RunResult) :
    w.Handled (w.leaveLoop id outcome) id (.finishing outcome) [.ended id] :=
  ⟨rfl, by simp [Event.id], rfl, rfl, rfl, rfl, by simp [leaveLoop, note, Fate.loops],
    by simp [Fate.loops], rfl, rfl, by simp [leaveLoop, note, Fate.posts],
    by simp [leaveLoop, note, Fate.answers], fun h _ => h⟩

/-- Every way a turn leaves its run: a run at its yield again has less left to do. -/
theorem handled_turnLoop (w : EmulatorWorker) (loop : RunLoop) (turn : Turn) :
    ∃ fate events, w.Handled (w.turnLoop loop turn) loop.id fate events ∧
      (∀ other, .began other ∉ events) ∧
      ∀ next ∈ fate.loops, next.epoch = loop.epoch ∧
        next.budgetLeft < loop.budgetLeft := by
  unfold turnLoop
  split
  · rename_i hbudget
    simp only
    generalize hchunk : Event.chunk loop.id (min chunkSteps (loop.maxSteps - loop.totalSteps)) = e
    have hid : e.id = loop.id := by
      subst hchunk
      rfl
    have hbegan : ∀ events, (∀ other, .began other ∉ events) →
        ∀ other, .began other ∉ e :: events := by
      intro events hno other hmem
      subst hchunk
      rcases List.mem_cons.mp hmem with heq | hmem
      · cases heq
      · exact hno other hmem
    have hanswers : answersOf [e] = [] := by
      subst hchunk
      rfl
    have hreceived : receivedIds [e] = [] := by
      subst hchunk
      rfl
    rcases turn.chunk with thrown | chunk
    · exact ⟨_, _, (handled_leaveLoop (w.note e) loop.id _).noted hid hanswers hreceived,
        hbegan _ (by simp), by simp [Fate.loops]⟩
    · simp only
      rcases hafter : loop.afterChunk turn chunk with ⟨next, heartbeat⟩ | next | thrown
      · obtain ⟨hnext, hmax, hepoch, hless⟩ := RunLoop.afterChunk_yields hafter
        refine ⟨.yielding next, [e], ⟨rfl, by simpa using hid, rfl, rfl, rfl,
          by simp [note, Fate.tasks], rfl, by simpa [Fate.loops] using hnext, hanswers, hreceived,
          ?_, ?_, fun h _ => h⟩, hbegan [] (by simp), ?_⟩
        · cases heartbeat <;> simp [note, Fate.posts]
        · cases heartbeat <;> simp [note, Fate.answers, repliesIn]
        · intro other hother
          obtain rfl := List.mem_singleton.mp hother
          refine ⟨hepoch, ?_⟩
          unfold RunLoop.budgetLeft
          omega
      · have hleft := handled_leaveLoop (w.note e) next.id
          (next.finalResult (w.note e).pauseRequested turn.blocked)
        rw [RunLoop.afterChunk_ends hafter] at hleft
        have hends : (w.note e).Handled ((w.note e).endLoop next turn) loop.id
            (.finishing (next.finalResult (w.note e).pauseRequested turn.blocked))
            [.ended loop.id] := by
          rw [endLoop, RunLoop.afterChunk_ends hafter]
          exact hleft
        exact ⟨_, _, hends.noted hid hanswers hreceived, hbegan _ (by simp), by simp [Fate.loops]⟩
      · exact ⟨_, _, (handled_leaveLoop (w.note e) loop.id _).noted hid hanswers hreceived,
          hbegan _ (by simp), by simp [Fate.loops]⟩
  · exact ⟨_, _, handled_leaveLoop w loop.id _, by simp, by simp [Fate.loops]⟩

/-- A handler that goes on after its wait. -/
theorem handled_proceed (w : EmulatorWorker) (req : Request) (turn : Turn) :
    ∃ fate events, w.Handled (w.proceed req turn) req.id fate events ∧
      ∀ next ∈ fate.loops, next.epoch = w.runEpoch ∧
        next.budgetLeft < req.kind.budget := by
  unfold proceed
  split
  · exact ⟨_, _, handled_fail w req.id notInitialized, by simp [Fate.loops]⟩
  · split
    · rename_i maxSteps hkind
      obtain ⟨fate, events, h, -, hloops⟩ := handled_turnLoop
        ({ w with pauseRequested := false }.note (.began req.id))
        ⟨req.id, maxSteps, w.runEpoch, 0, turn.startedAt, .initial⟩ turn
      have hnoted := h.noted rfl rfl rfl
      refine ⟨fate, _, ⟨hnoted.log, hnoted.about, hnoted.loading, hnoted.loads, hnoted.runEpoch,
        hnoted.ready, hnoted.yielding, hnoted.own, hnoted.answers, hnoted.received, hnoted.outbox,
        hnoted.posted, fun _ hno => absurd List.mem_cons_self (hno req.id)⟩, ?_⟩
      rw [hkind]
      exact hloops
    · rcases turn.call with e | ⟨⟩
      · exact ⟨_, _, handled_fail w req.id e, by simp [Fate.loops]⟩
      · obtain ⟨reply, h, -⟩ := handled_answerSnapshot (w.note (.carriedOut req.id)) req.id .ok
          turn.snapshot
        exact ⟨_, _, h.noted rfl rfl rfl, by simp [Fate.loops]⟩

/-- A task goes on. -/
theorem handled_resume (w : EmulatorWorker) (task : Task) (turn : Turn) :
    ∃ fate events, w.Handled (w.resume task turn) task.id fate events ∧
      ∀ next ∈ fate.loops, next.epoch = w.runEpoch ∧
        ∃ req loaded, task = .go req loaded ∧ next.budgetLeft < req.kind.budget := by
  rcases task with ⟨req, e | ⟨⟩⟩ | ⟨id, outcome⟩
  · exact ⟨_, _, handled_fail w req.id e, by simp [Fate.loops]⟩
  · obtain ⟨fate, events, h, hloops⟩ := handled_proceed w req turn
    exact ⟨fate, events, h, fun next hnext =>
      ⟨(hloops next hnext).1, req, .ok (), rfl, (hloops next hnext).2⟩⟩
  · obtain ⟨reply, h, -⟩ := handled_finish w id outcome turn
    exact ⟨_, _, h, by simp [Fate.loops]⟩

/-- A run that comes back to a machine that was replaced, or to a pause, is over; in the first
case it was cancelled, unless reading the machine throws. -/
theorem handled_wake_over (w : EmulatorWorker) (loop : RunLoop) (turn : Turn)
    (hover : loop.epoch ≠ w.runEpoch ∨ w.pauseRequested = true) :
    ∃ outcome, w.Handled (w.wake loop turn) loop.id (.finishing outcome)
        [.woke loop.id, .ended loop.id] ∧
      (loop.epoch ≠ w.runEpoch → turn.blocked.isOk = true →
        ∃ result, outcome = .ok result ∧ result.cancelled = true) := by
  unfold wake
  simp only
  by_cases hepoch : loop.epoch ≠ w.runEpoch
  · rw [if_pos (show loop.epoch ≠ (w.note (.woke loop.id)).runEpoch from hepoch)]
    refine ⟨_, (handled_leaveLoop (w.note (.woke loop.id)) loop.id _).noted rfl rfl rfl,
      fun _ hblocked => ?_⟩
    obtain ⟨result, hresult⟩ :=
      loop.cancel.finalResult_isOk (w.note (.woke loop.id)).pauseRequested hblocked
    exact ⟨result, hresult, RunLoop.cancelled_finalResult hresult⟩
  · rw [if_neg (show ¬ loop.epoch ≠ (w.note (.woke loop.id)).runEpoch from hepoch),
      if_pos (show (w.note (.woke loop.id)).pauseRequested = true from hover.resolve_left hepoch)]
    exact ⟨_, (handled_leaveLoop (w.note (.woke loop.id)) loop.id _).noted rfl rfl rfl,
      fun h => absurd h hepoch⟩

theorem handled_wake (w : EmulatorWorker) (loop : RunLoop) (turn : Turn) :
    ∃ fate events, w.Handled (w.wake loop turn) loop.id fate (.woke loop.id :: events) ∧
      (∀ other, .began other ∉ .woke loop.id :: events) ∧
      ∀ next ∈ fate.loops, next.epoch = loop.epoch ∧ next.budgetLeft < loop.budgetLeft := by
  by_cases hover : loop.epoch ≠ w.runEpoch ∨ w.pauseRequested = true
  · obtain ⟨outcome, h, -⟩ := handled_wake_over w loop turn hover
    exact ⟨_, _, h, by simp, by simp [Fate.loops]⟩
  · obtain ⟨hepoch, hpause⟩ := not_or.mp hover
    unfold wake
    simp only
    rw [if_neg (show ¬ loop.epoch ≠ (w.note (.woke loop.id)).runEpoch from hepoch),
      if_neg (show ¬ (w.note (.woke loop.id)).pauseRequested = true from hpause)]
    obtain ⟨fate, events, h, hno, hloops⟩ := handled_turnLoop (w.note (.woke loop.id)) loop turn
    exact ⟨fate, events, h.noted rfl rfl rfl, by simpa using hno, hloops⟩

end EmulatorWorker

end Worker

end Playground
