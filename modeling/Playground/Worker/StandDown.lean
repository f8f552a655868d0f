/-
A run stands down for a machine that was replaced, and for a pause, when neither is asked for
while the run still waits for the module.  A run that waits reads the epoch and takes the
pause back only when it begins, so it misses both.
-/
import Playground.Worker.Answers

namespace Playground

namespace Worker

/-- After a request that replaces the machine is carried out, a run received before it runs
no chunk, and reports that it was cancelled if it was still going. -/
def StandsDown (log : List Event) : Prop :=
  ∀ (run replace : Request) (before after : List Event), run.kind.isRun = true →
    replace.kind.replaces = true → [.received run, .received replace].Sublist before →
    log = before ++ .carriedOut replace.id :: after →
    (∀ steps, .chunk run.id steps ∉ after) ∧
      (.ended run.id ∉ before → ∀ reply, .replied run.id reply ∈ after →
        ∃ result, reply = .run result ∧ result.cancelled = true)

/-- The run is over: its loop was left. -/
def IsOver (id : Nat) (log : List Event) : Prop := ∃ rest, log = .ended id :: rest

/-- A run that comes back from its yield after a pause is over, if no other run has begun in
between. -/
def PauseHeld (log : List Event) : Prop :=
  ∀ (run pause : Request) (before between after : List Event), run.kind.isRun = true →
    pause.kind = .pause → .received run ∈ before →
    log = before ++ .received pause :: (between ++ .woke run.id :: after) →
    (∀ id, .began id ∈ between → id = run.id) → IsOver run.id after

namespace System

variable {s s' : System} {label : Label} {id : Nat}

/-- What a step may do: a request that replaces the machine, or a pause, is not received
while a run waits for the module, and reading the machine does not throw while a run that
was cancelled reports. -/
def Timely (s : System) : Label → Prop
  | .receive _ => ∀ req ∈ s.inbox.head?, (req.kind.replaces = true ∨ req.kind = .pause) →
      ∀ other ∈ s.worker.waiting, other.kind.isRun = false
  | .wake turn => ∀ loop ∈ s.worker.yielding.head?, loop.epoch ≠ s.worker.runEpoch →
      turn.blocked.isOk = true
  | .resume turn => ∀ id result, s.worker.ready.head? = some (.finish id (.ok result)) →
      result.cancelled = true → turn.snapshot.isOk = true
  | _ => True

/-- The systems that steps of this kind lead to. -/
inductive Reaches (allowed : System → Label → Prop) : System → Prop
  | start : Reaches allowed start
  | step {s s' : System} {label : Label} (h : Reaches allowed s) (hallowed : allowed s label)
      (hstep : s.step label = some s') : Reaches allowed s'

theorem Reaches.sound {allowed : System → Label → Prop} (h : Reaches allowed s) : s.Sound := by
  induction h with
  | start => exact sound_start
  | step _ _ hstep ih => exact ih.step hstep

/-- The request has begun, if it ever does. -/
structure Past (s : System) (id : Nat) : Prop where
  sent : id < s.nextId
  inbox : ∀ req ∈ s.inbox, req.id ≠ id
  waiting : ∀ req ∈ s.worker.waiting, req.id ≠ id
  ready : ∀ req loaded, .go req loaded ∈ s.worker.ready → req.id ≠ id

/-- Nothing of the request runs a chunk again. -/
structure Barred (s : System) (id : Nat) : Prop extends s.Past id where
  stale : ∀ loop ∈ s.worker.yielding, loop.id = id → loop.epoch < s.worker.runEpoch

section Step

/-- What one step adds to the record about a request that is past its start. -/
structure Adds (s s' : System) (id : Nat) (events : List Event) : Prop where
  log : s'.worker.log = s.worker.log ++ events
  past : s'.Past id
  began : .began id ∉ events
  pausing : s.worker.pauseRequested = true → (∀ other, .began other ∉ events) →
    s'.worker.pauseRequested = true
  /-- It comes back from its yield, and to a pause that is its end. -/
  woke : s.worker.pauseRequested = true → ∀ between after,
    events = between ++ .woke id :: after → IsOver id after

/-- A run that was left is to report that it was cancelled. -/
def Cancelled (s : System) (id : Nat) : Prop :=
  ∀ outcome, .finish id outcome ∈ s.worker.ready →
    ∃ result, outcome = .ok result ∧ result.cancelled = true

/-- What one step adds to the record about a request that is barred. -/
structure BarredAdds (s s' : System) (id : Nat) (events : List Event) : Prop where
  barred : s'.Barred id
  chunk : ∀ steps, .chunk id steps ∉ events
  reports : s.Cancelled id → s'.Cancelled id ∧
    ∀ reply, .replied id reply ∈ events → ∃ result, reply = .run result ∧ result.cancelled = true

variable {events : List Event}

/-- A step that is about none of it. -/
theorem adds_of_about {other : Nat} (hlog : s'.worker.log = s.worker.log ++ events)
    (hpast : s'.Past id) (habout : ∀ e ∈ events, e.id = other) (hne : events ≠ [] → other ≠ id)
    (hpausing : s.worker.pauseRequested = true → (∀ other, .began other ∉ events) →
      s'.worker.pauseRequested = true) : s.Adds s' id events := by
  have hnot : ∀ e : Event, e.id = id → e ∉ events := fun e he hmem =>
    hne (List.ne_nil_of_mem hmem) ((habout e hmem).symm.trans he)
  refine ⟨hlog, hpast, hnot _ rfl, hpausing, ?_⟩
  intro _ between after hsplit
  refine absurd ?_ (hnot (.woke id) rfl)
  rw [hsplit]
  exact List.mem_append_right _ List.mem_cons_self

theorem barredAdds_of_about {other : Nat} (hpast : s'.Past id)
    (habout : ∀ e ∈ events, e.id = other) (hne : events ≠ [] → other ≠ id)
    (hepoch : s.worker.runEpoch ≤ s'.worker.runEpoch)
    (hyielding : ∀ loop ∈ s'.worker.yielding, loop.id = id → loop ∈ s.worker.yielding)
    (hready : ∀ outcome, .finish id outcome ∈ s'.worker.ready →
      .finish id outcome ∈ s.worker.ready)
    (hbarred : s.Barred id) : s.BarredAdds s' id events := by
  have hnot : ∀ e : Event, e.id = id → e ∉ events := fun e he hmem =>
    hne (List.ne_nil_of_mem hmem) ((habout e hmem).symm.trans he)
  refine ⟨⟨hpast, fun loop hloop hid => ?_⟩, fun steps => hnot _ rfl, fun hcancelled => ?_⟩
  · exact (hbarred.stale loop (hyielding loop hloop hid) hid).trans_le hepoch
  · exact ⟨fun outcome hfinish => hcancelled outcome (hready outcome hfinish),
      fun reply hreply => absurd hreply (hnot _ rfl)⟩

/-- A handler that goes on for one request leaves the others past their start. -/
theorem Past.handled {w w' : EmulatorWorker} {other : Nat} {fate : Fate}
    (h : s.Past id) (hhandled : w.Handled w' other fate events)
    (hloading : w.loading = s.worker.loading) (hready : ∀ task ∈ w.ready, task ∈ s.worker.ready) :
    { s with worker := w' }.Past id := by
  refine ⟨h.sent, h.inbox, ?_, ?_⟩
  · intro req hreq
    have hwaiting : w'.waiting = s.worker.waiting := by
      unfold EmulatorWorker.waiting
      rw [hhandled.loading, hloading]
    have hmem : req ∈ w'.waiting := hreq
    rw [hwaiting] at hmem
    exact h.waiting req hmem
  · intro req loaded hgo
    have hmem : Task.go req loaded ∈ w'.ready := hgo
    rw [hhandled.ready] at hmem
    rcases List.mem_append.mp hmem with hmem | hmem
    · exact h.ready req loaded (hready _ hmem)
    · cases fate with
      | finishing outcome => simp [Fate.tasks] at hmem
      | _ => simp [Fate.tasks] at hmem

/-- A handler that goes on for another request. -/
theorem adds_of_handled {w w' : EmulatorWorker} {other : Nat} {fate : Fate}
    (h : s.Past id) (hhandled : w.Handled w' other fate events) (hne : other ≠ id)
    (hloading : w.loading = s.worker.loading) (hready : ∀ task ∈ w.ready, task ∈ s.worker.ready)
    (hyielding : ∀ loop ∈ w.yielding, loop ∈ s.worker.yielding)
    (hlog : w.log = s.worker.log) (hepoch : w.runEpoch = s.worker.runEpoch)
    (hpause : w.pauseRequested = s.worker.pauseRequested) :
    s.Adds { s with worker := w' } id events ∧
      (s.Barred id → s.BarredAdds { s with worker := w' } id events) := by
  have hpast := h.handled hhandled hloading hready
  constructor
  · refine adds_of_about (by rw [← hlog]; exact hhandled.log) hpast hhandled.about (fun _ => hne) ?_
    intro hrequested hbegan
    exact hhandled.pausing (hpause.trans hrequested) hbegan
  · refine barredAdds_of_about hpast hhandled.about (fun _ => hne)
      (by rw [← hepoch]; exact hhandled.runEpoch.ge) ?_ ?_
    · intro loop hloop hid
      have hmem : loop ∈ w'.yielding := hloop
      rw [hhandled.yielding] at hmem
      rcases List.mem_append.mp hmem with hmem | hmem
      · exact hyielding loop hmem
      · exact absurd ((hhandled.own loop hmem).symm.trans hid) hne
    · intro outcome hfinish
      have hmem : Task.finish id outcome ∈ w'.ready := hfinish
      rw [hhandled.ready] at hmem
      rcases List.mem_append.mp hmem with hmem | hmem
      · exact hready _ hmem
      · cases fate with
        | finishing other =>
            simp only [Fate.tasks, List.mem_singleton, Task.finish.injEq] at hmem
            exact absurd hmem.1.symm hne
        | _ => simp [Fate.tasks] at hmem

theorem isOver_of_woke {between after : List Event}
    (h : [.woke id, .ended id] = between ++ .woke id :: after) : IsOver id after := by
  cases between with
  | nil =>
      cases h
      exact ⟨[], rfl⟩
  | cons first between =>
      exfalso
      have hmem : Event.woke id ∈ [Event.ended id] := by
        rw [(List.cons.inj h).2]
        exact List.mem_append_right _ List.mem_cons_self
      cases List.mem_singleton.mp hmem

/-- A run that comes back from its yield. -/
theorem adds_of_wake {loop : RunLoop} {yielding : List RunLoop} (h : s.Past loop.id)
    (hyielding : s.worker.yielding = loop :: yielding) (turn : Turn) :
    ∃ events, s.Adds { s with worker := { s.worker with yielding := yielding }.wake loop turn }
        loop.id events ∧
      (s.Barred loop.id → (loop.epoch ≠ s.worker.runEpoch → turn.blocked.isOk = true) →
        s.BarredAdds { s with worker := { s.worker with yielding := yielding }.wake loop turn }
          loop.id events) := by
  have hstale : s.Barred loop.id → loop.epoch ≠ s.worker.runEpoch := fun hbarred =>
    Nat.ne_of_lt (hbarred.stale loop (by rw [hyielding]; exact List.mem_cons_self) rfl)
  by_cases hover : loop.epoch ≠ s.worker.runEpoch ∨ s.worker.pauseRequested = true
  · obtain ⟨outcome, hhandled, hcancel⟩ := EmulatorWorker.handled_wake_over
      { s.worker with yielding := yielding } loop turn hover
    have hpast := h.handled hhandled rfl fun _ h => h
    refine ⟨_, ⟨hhandled.log, hpast, by simp, hhandled.pausing, fun _ _ _ => isOver_of_woke⟩,
      fun hbarred hok => ⟨⟨hpast, ?_⟩, by simp, ?_⟩⟩
    · intro other hother hid
      have hmem := hhandled.yielding ▸ hother
      have hmem : other ∈ yielding := by simpa [Fate.loops] using hmem
      have hless := hbarred.stale other (by rw [hyielding]; exact List.mem_cons_of_mem _ hmem) hid
      exact hless.trans_le hhandled.runEpoch.ge
    · intro hcancelled
      refine ⟨fun other hother => ?_, by simp⟩
      have hmem := hhandled.ready ▸ hother
      rcases List.mem_append.mp hmem with hmem | hmem
      · exact hcancelled other hmem
      · simp only [Fate.tasks, List.mem_singleton, Task.finish.injEq, true_and] at hmem
        subst hmem
        exact hcancel (hstale hbarred) (hok (hstale hbarred))
  · obtain ⟨hepoch, hpause⟩ := not_or.mp hover
    obtain ⟨fate, events, hhandled, hbegan, -⟩ := EmulatorWorker.handled_wake
      { s.worker with yielding := yielding } loop turn
    exact ⟨_, ⟨hhandled.log, h.handled hhandled rfl fun _ h => h, hbegan _, hhandled.pausing,
      fun hrequested => absurd hrequested hpause⟩, fun hbarred _ => absurd (hstale hbarred) hepoch⟩

/-- A step that leaves the handlers alone. -/
theorem adds_nothing (hpast : s'.Past id) (hlog : s'.worker.log = s.worker.log)
    (hpause : s'.worker.pauseRequested = s.worker.pauseRequested)
    (hepoch : s'.worker.runEpoch = s.worker.runEpoch)
    (hyielding : s'.worker.yielding = s.worker.yielding)
    (hready : ∀ outcome, .finish id outcome ∈ s'.worker.ready →
      .finish id outcome ∈ s.worker.ready) :
    ∃ events, s.Adds s' id events ∧
      (s.Barred id → s.Timely label → s.BarredAdds s' id events) := by
  have habout : ∀ e ∈ ([] : List Event), e.id = 0 := nofun
  refine ⟨[], adds_of_about (by rw [hlog, List.append_nil]) hpast habout (absurd rfl)
    fun h _ => hpause.trans h, fun hbarred _ => ?_⟩
  exact barredAdds_of_about hpast habout (absurd rfl) hepoch.ge
    (fun loop hloop _ => hyielding ▸ hloop) hready hbarred

/-- What one step adds about a request that is past its start. -/
theorem past_step (hs : s.Sound) (h : s.Past id) (hstep : s.step label = some s') :
    ∃ events, s.Adds s' id events ∧
      (s.Barred id → s.Timely label → s.BarredAdds s' id events) := by
  cases moves_of_step hstep with
  | send kind =>
      have hpast : (s.send kind).Past id := by
        refine ⟨Nat.lt_succ_of_lt h.sent, ?_, h.waiting, h.ready⟩
        intro req hreq
        rcases List.mem_append.mp hreq with hreq | hreq
        · exact h.inbox req hreq
        · obtain rfl := List.mem_singleton.mp hreq
          exact Nat.ne_of_gt h.sent
      exact adds_nothing hpast rfl rfl rfl rfl fun _ h => h
  | receive turn req inbox hready hinbox =>
      have hne : req.id ≠ id := h.inbox req (by rw [hinbox]; exact List.mem_cons_self)
      have hinbox' : ∀ other ∈ inbox, other.id ≠ id := fun other hother =>
        h.inbox other (by rw [hinbox]; exact List.mem_cons_of_mem _ hother)
      rcases EmulatorWorker.onMessage_cases hs.loads req turn with
        ⟨reply, hhandled, -, -, hpausing⟩ | ⟨-, hkept⟩
      · have hpast : { s with inbox := inbox, worker := s.worker.onMessage req turn }.Past id := by
          obtain ⟨-, -, hwaiting, hgo⟩ := h.handled hhandled rfl fun _ h => h
          exact ⟨h.sent, hinbox', hwaiting, hgo⟩
        have habout : ∀ e ∈ [.received req, .replied req.id reply], Event.id e = req.id := by
          simp [Event.id]
        refine ⟨[.received req, .replied req.id reply], ?_, fun hbarred _ => ?_⟩
        · refine adds_of_about ?_ hpast habout (fun _ => hne) fun h _ => hpausing h
          rw [hhandled.log]
          simp [EmulatorWorker.note]
        · refine barredAdds_of_about hpast habout (fun _ => hne) hhandled.runEpoch.ge ?_ ?_ hbarred
          · intro loop hloop _
            have hmem := hhandled.yielding ▸ hloop
            simpa [Fate.loops, EmulatorWorker.note] using hmem
          · intro outcome hfinish
            have hmem := hhandled.ready ▸ hfinish
            simpa [Fate.tasks, EmulatorWorker.note] using hmem
      · have hpast : { s with inbox := inbox, worker := s.worker.onMessage req turn }.Past id := by
          refine ⟨h.sent, hinbox', ?_, ?_⟩
          · intro other hother
            rcases hkept.waiting other hother with rfl | hmem
            · exact hne
            · exact h.waiting other hmem
          · intro other loaded hgo
            have hmem : Task.go other loaded ∈ (s.worker.onMessage req turn).ready := hgo
            rcases hkept.ready with heq | heq
            · rw [heq] at hmem
              exact h.ready other loaded hmem
            · rw [heq] at hmem
              rcases List.mem_append.mp hmem with hmem | hmem
              · exact h.ready other loaded hmem
              · cases List.mem_singleton.mp hmem
                exact hne
        have habout : ∀ e ∈ [.received req], Event.id e = req.id := by
          simp [Event.id]
        refine ⟨[.received req], ?_, fun hbarred _ => ?_⟩
        · exact adds_of_about hkept.log hpast habout (fun _ => hne)
            fun h _ => hkept.pauseRequested.trans h
        · refine barredAdds_of_about hpast habout (fun _ => hne) ?_ ?_ ?_ hbarred
          · exact (Nat.le_add_right _ _).trans hkept.runEpoch.ge
          · exact fun loop hloop _ => hkept.yielding ▸ hloop
          · intro outcome hfinish
            have hmem : Task.finish id outcome ∈ (s.worker.onMessage req turn).ready := hfinish
            rcases hkept.ready with heq | heq
            · exact heq ▸ hmem
            · rw [heq] at hmem
              rcases List.mem_append.mp hmem with hmem | hmem
              · exact hmem
              · cases List.mem_singleton.mp hmem
  | settle number outcome load hload =>
      have hgo : ∀ req loaded, .go req loaded ∈ (s.worker.settle load outcome).ready →
          .go req loaded ∈ s.worker.ready ∨ req ∈ s.worker.waiting := by
        intro req loaded hmem
        have hmem : Task.go req loaded ∈ s.worker.ready ++
            load.waiting.map fun req => Task.go req outcome := by
          rcases outcome with e | ⟨⟩ <;> exact hmem
        rcases List.mem_append.mp hmem with hmem | hmem
        · exact .inl hmem
        · obtain ⟨other, hother, heq⟩ := List.mem_map.mp hmem
          cases heq
          exact .inr (List.mem_flatMap.mpr ⟨load, hload, hother⟩)
      have hpast : { s with worker := s.worker.settle load outcome }.Past id := by
        refine ⟨h.sent, h.inbox, ?_, ?_⟩
        · intro req hreq
          obtain ⟨other, hother, hmem⟩ := List.mem_flatMap.mp hreq
          refine h.waiting req (List.mem_flatMap.mpr ⟨other, ?_, hmem⟩)
          rcases outcome with e | ⟨⟩ <;> exact List.mem_of_mem_filter hother
        · intro req loaded hmem
          rcases hgo req loaded hmem with hmem | hmem
          · exact h.ready req loaded hmem
          · exact h.waiting req hmem
      have hfinish : ∀ left, .finish id left ∈ (s.worker.settle load outcome).ready →
          .finish id left ∈ s.worker.ready := by
        intro left hmem
        have hmem : Task.finish id left ∈ s.worker.ready ++
            load.waiting.map fun req => Task.go req outcome := by
          rcases outcome with e | ⟨⟩ <;> exact hmem
        rcases List.mem_append.mp hmem with hmem | hmem
        · exact hmem
        · obtain ⟨other, -, heq⟩ := List.mem_map.mp hmem
          cases heq
      rcases outcome with e | ⟨⟩ <;> exact adds_nothing hpast rfl rfl rfl rfl hfinish
  | resume turn task ready hready =>
      have hrest : ∀ other ∈ ready, other ∈ s.worker.ready := fun other hother => by
        rw [hready]
        exact List.mem_cons_of_mem _ hother
      have hhead : task ∈ s.worker.ready := by
        rw [hready]
        exact List.mem_cons_self
      by_cases hid : task.id = id
      · -- its handler has begun, so it is the end of its run
        rcases task with ⟨req, loaded⟩ | ⟨fid, outcome⟩
        · exact absurd hid (h.ready req loaded hhead)
        · obtain rfl : fid = id := hid
          obtain ⟨reply, hhandled, hreply⟩ := EmulatorWorker.handled_finish
            { s.worker with ready := ready } fid outcome turn
          have hpast := h.handled hhandled rfl hrest
          refine ⟨_, ⟨hhandled.log, hpast, by simp, hhandled.pausing, ?_⟩,
            fun hbarred htimely => ⟨⟨hpast, ?_⟩, by simp, fun hcancelled => ⟨?_, ?_⟩⟩⟩
          · intro _ between after hsplit
            have hmem : Event.woke fid ∈ [Event.replied fid reply] := by
              rw [hsplit]
              exact List.mem_append_right _ List.mem_cons_self
            cases List.mem_singleton.mp hmem
          · intro loop hloop hid
            have hmem := hhandled.yielding ▸ hloop
            have hmem : loop ∈ s.worker.yielding := by simpa [Fate.loops] using hmem
            exact (hbarred.stale loop hmem hid).trans_le hhandled.runEpoch.ge
          · intro other hother
            have hmem := hhandled.ready ▸ hother
            have hmem : Task.finish fid other ∈ ready := by simpa [Fate.tasks] using hmem
            exact hcancelled other (hrest _ hmem)
          · intro other hother
            obtain ⟨-, rfl⟩ := Event.replied.inj (List.mem_singleton.mp hother)
            obtain ⟨result, rfl, hone⟩ := hcancelled outcome hhead
            exact ⟨result, hreply result rfl (htimely fid result (by rw [hready]; rfl) hone), hone⟩
      · obtain ⟨fate, events, hhandled, -⟩ := EmulatorWorker.handled_resume
          { s.worker with ready := ready } task turn
        obtain ⟨hadds, hbarredAdds⟩ := adds_of_handled h hhandled hid rfl hrest
          (fun _ h => h) rfl rfl rfl
        exact ⟨_, hadds, fun hbarred _ => hbarredAdds hbarred⟩
  | wake turn loop yielding hready hyielding =>
      by_cases hid : loop.id = id
      · subst hid
        obtain ⟨events, hadds, hbarredAdds⟩ := adds_of_wake h hyielding turn
        refine ⟨events, hadds, fun hbarred htimely => hbarredAdds hbarred (htimely loop ?_)⟩
        rw [hyielding]
        rfl
      · obtain ⟨fate, events, hhandled, -, -⟩ := EmulatorWorker.handled_wake
          { s.worker with yielding := yielding } loop turn
        obtain ⟨hadds, hbarredAdds⟩ := adds_of_handled h hhandled hid rfl (fun _ h => h)
          (fun other hother => by rw [hyielding]; exact List.mem_cons_of_mem _ hother) rfl rfl rfl
        exact ⟨_, hadds, fun hbarred _ => hbarredAdds hbarred⟩
  | deliver message outbox houtbox =>
      have hpast : { s with worker := { s.worker with outbox := outbox } }.Past id :=
        ⟨h.sent, h.inbox, h.waiting, h.ready⟩
      cases message with
      | heartbeat => exact adds_nothing hpast rfl rfl rfl rfl fun _ h => h
      | reply other reply =>
          unfold onWorkerMessage
          simp only
          split
          · exact adds_nothing ⟨h.sent, h.inbox, h.waiting, h.ready⟩ rfl rfl rfl rfl fun _ h => h
          · exact adds_nothing hpast rfl rfl rfl rfl fun _ h => h
  | workerError message =>
      exact adds_nothing ⟨h.sent, h.inbox, h.waiting, h.ready⟩ rfl rfl rfl rfl fun _ h => h

end Step

section Record

/-- What a run that is to stand down, or is paused, owes from the request on. -/
structure Owed (s : System) : Prop where
  replaced : ∀ (run replace : Request) (before after : List Event), run.kind.isRun = true →
    replace.kind.replaces = true → .received run ∈ before →
    s.worker.log = before ++ .received replace :: after →
    s.Barred run.id ∧ (∀ steps, .chunk run.id steps ∉ after) ∧
      (.ended run.id ∉ before →
        s.Cancelled run.id ∧ ∀ reply, .replied run.id reply ∈ after →
          ∃ result, reply = .run result ∧ result.cancelled = true)
  paused : ∀ (run pause : Request) (before after : List Event), run.kind.isRun = true →
    pause.kind = .pause → .received run ∈ before →
    s.worker.log = before ++ .received pause :: after →
    s.Past run.id ∧ .began run.id ∉ after ∧
      ((∀ other, .began other ∉ after) → s.worker.pauseRequested = true) ∧
      ∀ between rest, after = between ++ .woke run.id :: rest →
        (∀ other, .began other ∉ between) → IsOver run.id rest

variable {log before : List Event}

theorem mem_receivedIds {req : Request} (h : .received req ∈ log) :
    req.id ∈ receivedIds log := List.mem_filterMap.mpr ⟨_, h, rfl⟩

theorem eq_of_received (hnodup : (receivedIds log).Nodup) {req other : Request}
    (hreq : .received req ∈ log) (hother : .received other ∈ log) (hid : req.id = other.id) :
    req = other := by
  induction log with
  | nil => cases hreq
  | cons e log ih =>
      rw [show e :: log = [e] ++ log from rfl, receivedIds_append] at hnodup
      obtain ⟨-, hrest, hapart⟩ := List.nodup_append.mp hnodup
      rcases List.mem_cons.mp hreq with rfl | hold
      · rcases List.mem_cons.mp hother with hother | hother
        · exact (Event.received.inj hother).symm
        · exact absurd hid (hapart _ List.mem_cons_self _ (mem_receivedIds hother))
      · rcases List.mem_cons.mp hother with rfl | hother
        · exact absurd hid.symm (hapart _ List.mem_cons_self _ (mem_receivedIds hold))
        · exact ih hrest hold hother

/-- A run that waits for nothing when a message is taken has begun. -/
theorem past_of_receive (turn : Turn) (hs : s.Sound) {req run : Request} {inbox : List Request}
    (hready : s.worker.ready = []) (hinbox : s.inbox = req :: inbox)
    (hwaits : ∀ other ∈ s.worker.waiting, other.kind.isRun = false)
    (hrun : run.kind.isRun = true) (hreceived : .received run ∈ s.worker.log) :
    { s with inbox := inbox, worker := s.worker.onMessage req turn }.Past run.id := by
  have hids : (receivedIds s.worker.log ++ s.inbox.map Request.id).Nodup := by
    rw [hs.numbered]
    exact List.nodup_range'
  obtain ⟨hlog, -, hapart⟩ := List.nodup_append.mp hids
  have hmem := mem_receivedIds hreceived
  have hqueued : ∀ other ∈ s.inbox, other.id ≠ run.id := fun other hother heq =>
    hapart _ hmem _ (List.mem_map_of_mem hother) heq.symm
  have hsent : run.id < s.nextId := by
    have hrange : run.id ∈ List.range' 1 (s.nextId - 1) := by
      rw [← hs.numbered]
      exact List.mem_append_left _ hmem
    have := List.mem_range'_1.mp hrange
    omega
  have hwaiting : ∀ other ∈ s.worker.waiting, other.id ≠ run.id := by
    intro other hother heq
    obtain rfl := eq_of_received hlog (hs.recorded other hother) hreceived heq
    rw [hwaits other hother] at hrun
    cases hrun
  have hreq : req.id ≠ run.id := hqueued req (by rw [hinbox]; exact List.mem_cons_self)
  have hrest : ∀ other ∈ inbox, other.id ≠ run.id := fun other hother =>
    hqueued other (by rw [hinbox]; exact List.mem_cons_of_mem _ hother)
  rcases EmulatorWorker.onMessage_cases hs.loads req turn with ⟨reply, hhandled, -⟩ | ⟨-, hkept⟩
  · refine ⟨hsent, hrest, fun other hother => ?_, fun other loaded hgo => ?_⟩
    · refine hwaiting other ?_
      have hmem : other ∈ (s.worker.onMessage req turn).waiting := hother
      unfold EmulatorWorker.waiting at hmem
      rwa [hhandled.loading] at hmem
    · have hmem := hhandled.ready ▸ hgo
      simp [Fate.tasks, EmulatorWorker.note, hready] at hmem
  · refine ⟨hsent, hrest, fun other hother => ?_, fun other loaded hgo => ?_⟩
    · rcases hkept.waiting other hother with rfl | hmem
      · exact hreq
      · exact hwaiting other hmem
    · have hmem : Task.go other loaded ∈ (s.worker.onMessage req turn).ready := hgo
      rcases hkept.ready with heq | heq
      · rw [heq, hready] at hmem
        cases hmem
      · rw [heq, hready] at hmem
        cases List.mem_singleton.mp hmem
        exact hreq

theorem isOver_append (h : IsOver id log) (events : List Event) :
    IsOver id (log ++ events) := by
  obtain ⟨rest, rfl⟩ := h
  exact ⟨rest ++ events, rfl⟩

/-- An event of a longer record is in the old part or in what was added. -/
theorem split_append {events after : List Event} {e : Event}
    (h : log ++ events = before ++ e :: after) :
    (∃ middle, log = before ++ e :: middle ∧ after = middle ++ events) ∨
      ∃ middle, before = log ++ middle ∧ events = middle ++ e :: after := by
  rcases List.append_eq_append_iff.mp h with ⟨middle, hbefore, hevents⟩ | ⟨middle, hlog, hafter⟩
  · exact .inr ⟨middle, hbefore, hevents⟩
  · cases middle with
    | nil => exact .inr ⟨[], by simpa using hlog.symm, by simpa using hafter.symm⟩
    | cons first middle =>
        obtain ⟨rfl, hrest⟩ := List.cons.inj hafter
        exact .inl ⟨middle, hlog, hrest⟩

/-- The record only grows, and a new request in it is the one that is received. -/
theorem log_step (hs : s.Sound) (hstep : s.step label = some s') :
    ∃ events, s'.worker.log = s.worker.log ++ events ∧
      ∀ req between after, events = between ++ .received req :: after →
        ∃ turn inbox, label = .receive turn ∧ s.worker.ready = [] ∧ s.inbox = req :: inbox ∧
          s' = { s with inbox := inbox, worker := s.worker.onMessage req turn } ∧ between = [] := by
  have hquiet : ∀ {events : List Event}, receivedIds events = [] →
      ∀ req between after, events ≠ between ++ .received req :: after := by
    intro events hnone req between after hsplit
    rw [hsplit, receivedIds_append] at hnone
    have hright := (List.append_eq_nil_iff.mp hnone).2
    cases hright
  cases moves_of_step hstep with
  | send kind => exact ⟨[], (List.append_nil _).symm, fun _ _ _ h => absurd h (hquiet rfl _ _ _)⟩
  | receive turn req inbox hready hinbox =>
      have hfirst : ∀ (rest : List Event), receivedIds rest = [] → ∀ req' between after,
          .received req :: rest = between ++ .received req' :: after →
            req' = req ∧ between = [] := by
        intro rest hnone req' between after hsplit
        cases between with
        | nil => exact ⟨(Event.received.inj (List.cons.inj hsplit).1).symm, rfl⟩
        | cons first between => exact absurd (List.cons.inj hsplit).2 (hquiet hnone _ _ _)
      rcases EmulatorWorker.onMessage_cases hs.loads req turn with
        ⟨reply, hhandled, -, -, -⟩ | ⟨-, hkept⟩
      · refine ⟨[.received req, .replied req.id reply], ?_, ?_⟩
        · rw [hhandled.log]
          simp [EmulatorWorker.note]
        · intro req' between after hsplit
          obtain ⟨rfl, hbetween⟩ := hfirst _ rfl req' between after hsplit
          exact ⟨turn, inbox, rfl, hready, hinbox, rfl, hbetween⟩
      · refine ⟨[.received req], hkept.log, ?_⟩
        intro req' between after hsplit
        obtain ⟨rfl, hbetween⟩ := hfirst _ rfl req' between after hsplit
        exact ⟨turn, inbox, rfl, hready, hinbox, rfl, hbetween⟩
  | settle number outcome load hload =>
      refine ⟨[], ?_, fun _ _ _ h => absurd h (hquiet rfl _ _ _)⟩
      rw [List.append_nil]
      rcases outcome with e | ⟨⟩ <;> rfl
  | resume turn task ready hready =>
      obtain ⟨fate, events, hhandled, -⟩ := EmulatorWorker.handled_resume
        { s.worker with ready := ready } task turn
      exact ⟨events, hhandled.log, fun _ _ _ h => absurd h (hquiet hhandled.received _ _ _)⟩
  | wake turn loop yielding hready hyielding =>
      obtain ⟨fate, events, hhandled, -, -⟩ := EmulatorWorker.handled_wake
        { s.worker with yielding := yielding } loop turn
      exact ⟨_, hhandled.log, fun _ _ _ h => absurd h (hquiet hhandled.received _ _ _)⟩
  | deliver message outbox houtbox =>
      refine ⟨[], ?_, fun _ _ _ h => absurd h (hquiet rfl _ _ _)⟩
      rw [List.append_nil]
      cases message with
      | heartbeat => rfl
      | reply id reply =>
          unfold onWorkerMessage
          simp only
          split <;> rfl
  | workerError message =>
      exact ⟨[], (List.append_nil _).symm, fun _ _ _ h => absurd h (hquiet rfl _ _ _)⟩

theorem owed_start : start.Owed where
  replaced _ _ before after _ _ _ h := by
    have hlen := congrArg List.length h
    simp [start, EmulatorWorker.new] at hlen
  paused _ _ before after _ _ _ h := by
    have hlen := congrArg List.length h
    simp [start, EmulatorWorker.new] at hlen

/-- A run received before a request that replaces the machine stays barred. -/
theorem Owed.replaced_step (hs : s.Sound) (h : s.Owed) (htimely : s.Timely label)
    (hstep : s.step label = some s') {run replace : Request} {after : List Event}
    (hrun : run.kind.isRun = true) (hreplaces : replace.kind.replaces = true)
    (hreceived : .received run ∈ before)
    (hlog' : s'.worker.log = before ++ .received replace :: after) :
    s'.Barred run.id ∧ (∀ steps, .chunk run.id steps ∉ after) ∧
      (.ended run.id ∉ before →
        s'.Cancelled run.id ∧ ∀ reply, .replied run.id reply ∈ after →
          ∃ result, reply = .run result ∧ result.cancelled = true) := by
  obtain ⟨events, hlog, hnew⟩ := log_step hs hstep
  rcases split_append (hlog.symm.trans hlog') with ⟨middle, hold, rfl⟩ | ⟨middle, hbefore, hsplit⟩
  · obtain ⟨hbarred, hchunk, hreports⟩ := h.replaced run replace before middle hrun hreplaces
      hreceived hold
    obtain ⟨events', hadds, hbarredAdds⟩ := past_step hs hbarred.toPast hstep
    obtain rfl : events' = events := List.append_cancel_left (hadds.log.symm.trans hlog)
    have hnow := hbarredAdds hbarred htimely
    refine ⟨hnow.barred, fun steps hmem => ?_, fun hended => ?_⟩
    · rcases List.mem_append.mp hmem with hmem | hmem
      · exact hchunk steps hmem
      · exact hnow.chunk steps hmem
    · obtain ⟨hfinish, hreplied⟩ := hreports hended
      obtain ⟨hfinish', hreplied'⟩ := hnow.reports hfinish
      refine ⟨hfinish', fun reply hmem => ?_⟩
      rcases List.mem_append.mp hmem with hmem | hmem
      · exact hreplied reply hmem
      · exact hreplied' reply hmem
  · obtain ⟨turn, inbox, rfl, hready, hinbox, rfl, rfl⟩ := hnew replace middle after hsplit
    rw [hbefore, List.append_nil] at hreceived
    have hhead : replace ∈ s.inbox.head? := by
      rw [hinbox]
      rfl
    have hpast := past_of_receive turn hs hready hinbox
      (htimely replace hhead (.inl hreplaces)) hrun hreceived
    rcases EmulatorWorker.onMessage_cases hs.loads replace turn with
      ⟨reply, -, hkind, -⟩ | ⟨-, hkept⟩
    · rw [hreplaces] at hkind
      cases hkind
    · have hevents : events = [.received replace] :=
        List.append_cancel_left (hlog.symm.trans hkept.log)
      obtain rfl : after = [] := (List.cons.inj (hsplit.symm.trans hevents)).2
      refine ⟨⟨hpast, fun loop hloop _ => ?_⟩, nofun, fun _ => ⟨fun outcome hfinish => ?_, nofun⟩⟩
      · have hmem : loop ∈ (s.worker.onMessage replace turn).yielding := hloop
        rw [hkept.yielding] at hmem
        have hepoch : (s.worker.onMessage replace turn).runEpoch = s.worker.runEpoch + 1 := by
          rw [hkept.runEpoch, hreplaces]
          rfl
        exact (Nat.lt_succ_of_le (hs.epochs loop hmem)).trans_eq hepoch.symm
      · have hmem : Task.finish run.id outcome ∈ (s.worker.onMessage replace turn).ready := hfinish
        rcases hkept.ready with heq | heq
        · rw [heq, hready] at hmem
          cases hmem
        · rw [heq, hready] at hmem
          cases List.mem_singleton.mp hmem

/-- A pause received after a run stays asked for until another run begins. -/
theorem Owed.paused_step (hs : s.Sound) (h : s.Owed) (htimely : s.Timely label)
    (hstep : s.step label = some s') {run pause : Request} {after : List Event}
    (hrun : run.kind.isRun = true) (hpause : pause.kind = .pause)
    (hreceived : .received run ∈ before)
    (hlog' : s'.worker.log = before ++ .received pause :: after) :
    s'.Past run.id ∧ .began run.id ∉ after ∧
      ((∀ other, .began other ∉ after) → s'.worker.pauseRequested = true) ∧
      ∀ between rest, after = between ++ .woke run.id :: rest →
        (∀ other, .began other ∉ between) → IsOver run.id rest := by
  obtain ⟨events, hlog, hnew⟩ := log_step hs hstep
  rcases split_append (hlog.symm.trans hlog') with ⟨middle, hold, rfl⟩ | ⟨middle, hbefore, hsplit⟩
  · obtain ⟨hpast, hbegan, hflag, hwoke⟩ := h.paused run pause before middle hrun hpause
      hreceived hold
    obtain ⟨events', hadds, -⟩ := past_step hs hpast hstep
    obtain rfl : events' = events := List.append_cancel_left (hadds.log.symm.trans hlog)
    refine ⟨hadds.past, fun hmem => ?_, fun hnone => ?_, fun between rest hrest hnone => ?_⟩
    · rcases List.mem_append.mp hmem with hmem | hmem
      · exact hbegan hmem
      · exact hadds.began hmem
    · refine hadds.pausing (hflag fun other hmem => ?_) fun other hmem => ?_
      · exact hnone other (List.mem_append_left _ hmem)
      · exact hnone other (List.mem_append_right _ hmem)
    · rcases split_append hrest with ⟨early, hearly, rfl⟩ | ⟨early, rfl, hlate⟩
      · exact isOver_append (hwoke between early hearly hnone) events'
      · refine hadds.woke (hflag fun other hmem => ?_) early rest hlate
        exact hnone other (List.mem_append_left _ hmem)
  · obtain ⟨turn, inbox, rfl, hready, hinbox, rfl, rfl⟩ := hnew pause middle after hsplit
    rw [hbefore, List.append_nil] at hreceived
    have hhead : pause ∈ s.inbox.head? := by
      rw [hinbox]
      rfl
    have hpast := past_of_receive turn hs hready hinbox
      (htimely pause hhead (.inr hpause)) hrun hreceived
    rcases EmulatorWorker.onMessage_cases hs.loads pause turn with
      ⟨reply, hhandled, -, hflag, -⟩ | ⟨hkind, -⟩
    · have hevents : events = [.received pause, .replied pause.id reply] := by
        refine List.append_cancel_left (hlog.symm.trans (hhandled.log.trans ?_))
        simp [EmulatorWorker.note]
      obtain rfl : after = [.replied pause.id reply] :=
        (List.cons.inj (hsplit.symm.trans hevents)).2
      refine ⟨hpast, by simp, fun _ => hflag hpause, fun between rest hrest _ => ?_⟩
      have hmem : Event.woke run.id ∈ [Event.replied pause.id reply] := by
        rw [hrest]
        exact List.mem_append_right _ List.mem_cons_self
      cases List.mem_singleton.mp hmem
    · exact absurd hpause hkind

theorem Owed.step (hs : s.Sound) (h : s.Owed) (htimely : s.Timely label)
    (hstep : s.step label = some s') : s'.Owed where
  replaced _ _ _ _ := h.replaced_step hs htimely hstep
  paused _ _ _ _ := h.paused_step hs htimely hstep

theorem Reaches.owed (h : Reaches Timely s) : s.Owed := by
  induction h with
  | start => exact owed_start
  | step hreach htimely hstep ih => exact ih.step hreach.sound htimely hstep

/-- The run is received before the request, and the request before it is carried out. -/
theorem split_of_sublist {first second : Event} (h : [first, second].Sublist before) :
    ∃ left right, before = left ++ second :: right ∧ first ∈ left := by
  obtain ⟨left, right, rfl, hfirst, hsecond⟩ :=
    List.append_sublist_iff.mp (show ([first] ++ [second]).Sublist before from h)
  obtain ⟨middle, rest, rfl⟩ := List.append_of_mem (List.singleton_sublist.mp hsecond)
  refine ⟨left ++ middle, rest, by rw [List.append_assoc], ?_⟩
  exact List.mem_append_left _ (List.singleton_sublist.mp hfirst)

theorem Owed.standsDown (h : s.Owed) : StandsDown s.worker.log := by
  intro run replace before after hrun hreplaces hsub hlog
  obtain ⟨left, right, rfl, hreceived⟩ := split_of_sublist hsub
  rw [List.append_assoc, List.cons_append] at hlog
  obtain ⟨-, hchunk, hreports⟩ := h.replaced run replace left _ hrun hreplaces hreceived hlog
  have hlate : ∀ e ∈ after, e ∈ right ++ .carriedOut replace.id :: after := fun e he =>
    List.mem_append_right _ (List.mem_cons_of_mem _ he)
  refine ⟨fun steps hmem => hchunk steps (hlate _ hmem), fun hended reply hmem => ?_⟩
  obtain ⟨-, hreplied⟩ := hreports fun hmem => hended (List.mem_append_left _ hmem)
  exact hreplied reply (hlate _ hmem)

theorem Owed.pauseHeld (h : s.Owed) : PauseHeld s.worker.log := by
  intro run pause before between after hrun hpause hreceived hlog hbegan
  obtain ⟨-, hnone, -, hwoke⟩ := h.paused run pause before _ hrun hpause hreceived hlog
  refine hwoke between after rfl fun other hmem => ?_
  obtain rfl := hbegan other hmem
  exact hnone (List.mem_append_left _ hmem)

end Record

end System

/-- Whatever the order of messages, loads and yields, each request is answered exactly once.
And in a run of the system in which no request that replaces the machine, and no pause, is
received while a run waits for the module, a run stands down for both. -/
theorem interleavings_sound (s : System) :
    (System.Reaches (fun _ _ => True) s → s.AnsweredOnce) ∧
      (System.Reaches System.Timely s → StandsDown s.worker.log ∧ PauseHeld s.worker.log) := by
  refine ⟨fun h => h.sound.answeredOnce, fun h => ?_⟩
  exact ⟨h.owed.standsDown, h.owed.pauseHeld⟩

/-- A turn in which the module answers, and a chunk runs one instruction. -/
def calmTurn : Turn :=
  ⟨.ok (), .ok { RunResult.initial with stepsExecuted := 1 }, .ok false, .ok (), 0, 0⟩

/-- A run and another request are both received before the module has loaded, and the run
comes back from its first yield. -/
def whileLoading (kind : RequestKind) (resumes : Nat) : List Label :=
  [.send (.runUntilBreak 10), .send kind, .receive calmTurn, .receive calmTurn,
    .settle 0 (.ok ())] ++ List.replicate resumes (.resume calmTurn) ++ [.wake calmTurn]

theorem reaches_of_run {s s' : System} {labels : List Label}
    (h : System.Reaches (fun _ _ => True) s) (hrun : labels.foldlM System.step s = some s') :
    System.Reaches (fun _ _ => True) s' := by
  induction labels generalizing s with
  | nil =>
      cases hrun
      exact h
  | cons label labels ih =>
      rw [List.foldlM_cons] at hrun
      obtain ⟨next, hstep, hrest⟩ := Option.bind_eq_some_iff.mp hrun
      exact ih (h.step trivial hstep) hrest

/-- The run of a system as far as its record tells. -/
def recordOf (labels : List Label) : Option (List Event) :=
  (labels.foldlM System.step System.start).map fun s => s.worker.log

theorem reaches_of_recordOf {labels : List Label} {log : List Event}
    (h : recordOf labels = some log) :
    ∃ s, System.Reaches (fun _ _ => True) s ∧ s.worker.log = log := by
  obtain ⟨s, hrun, hlog⟩ := Option.map_eq_some_iff.mp h
  exact ⟨s, reaches_of_run .start hrun, hlog⟩

theorem recordOf_reset : recordOf (whileLoading .reset 2) =
    some ([.received ⟨1, .runUntilBreak 10⟩, .received ⟨2, .reset⟩, .began 1, .chunk 1 10] ++
      .carriedOut 2 :: [.replied 2 .ok, .woke 1, .chunk 1 9]) := by
  decide

theorem recordOf_pause : recordOf (whileLoading .pause 1) =
    some ([.received ⟨1, .runUntilBreak 10⟩] ++ .received ⟨2, .pause⟩ ::
      ([.replied 2 .ok, .began 1, .chunk 1 10] ++ .woke 1 :: [.chunk 1 9])) := by
  decide

/-- A run that waits for the module when a reset comes goes on with the machine that was
reset, and one that waits when a pause comes does not see the pause. -/
theorem not_interleavings_sound :
    (¬ ∀ s, System.Reaches (fun _ _ => True) s →
      s.AnsweredOnce ∧ StandsDown s.worker.log ∧ PauseHeld s.worker.log) ∧
    (∃ s, System.Reaches (fun _ _ => True) s ∧ ¬ StandsDown s.worker.log) ∧
      ∃ s, System.Reaches (fun _ _ => True) s ∧ ¬ PauseHeld s.worker.log := by
  obtain ⟨s, hreach, hlog⟩ := reaches_of_recordOf recordOf_reset
  obtain ⟨s', hreach', hlog'⟩ := reaches_of_recordOf recordOf_pause
  have hreset : ¬ StandsDown s.worker.log := by
    intro h
    obtain ⟨hchunk, -⟩ := h ⟨1, .runUntilBreak 10⟩ ⟨2, .reset⟩ _ _ rfl rfl (by decide) hlog
    exact hchunk 9 (by decide)
  have hpause : ¬ PauseHeld s'.worker.log := by
    intro h
    obtain ⟨rest, heq⟩ := h ⟨1, .runUntilBreak 10⟩ ⟨2, .pause⟩ _ _ _ rfl rfl (by decide) hlog'
      (by simp)
    cases (List.cons.inj heq).1
  exact ⟨fun h => hreset (h s hreach).2.1, ⟨s, hreach, hreset⟩, s', hreach', hpause⟩

end Worker

end Playground
