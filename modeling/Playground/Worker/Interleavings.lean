/-
Every interleaving of arrivals, loads, resumptions and yields.  Each request is answered
once.  A run stands down for a machine that was replaced, and for a pause, as long as
neither is asked for while the run still waits for the module.
-/
import Playground.Worker.Accounting

namespace Playground

namespace Worker

namespace System

variable {s s' : System} {label : Label}

/-- What a step did. -/
inductive Moves (s : System) : Label → System → Prop
  | send (kind : RequestKind) : Moves s (.send kind) (s.send kind)
  | receive (turn : Turn) (req : Request) (inbox : List Request) (hready : s.worker.ready = [])
      (hinbox : s.inbox = req :: inbox) :
      Moves s (.receive turn) { s with inbox := inbox, worker := s.worker.onMessage req turn }
  | settle (number : Nat) (outcome : Except Thrown Unit) (load : Load)
      (hload : load ∈ s.worker.loading) :
      Moves s (.settle number outcome) { s with worker := s.worker.settle load outcome }
  | resume (turn : Turn) (task : Task) (ready : List Task)
      (hready : s.worker.ready = task :: ready) :
      Moves s (.resume turn)
        { s with worker := { s.worker with ready := ready }.resume task turn }
  | wake (turn : Turn) (loop : RunLoop) (yielding : List RunLoop) (hready : s.worker.ready = [])
      (hyielding : s.worker.yielding = loop :: yielding) :
      Moves s (.wake turn)
        { s with worker := { s.worker with yielding := yielding }.wake loop turn }
  | deliver (message : WorkerMessage) (outbox : List WorkerMessage)
      (houtbox : s.worker.outbox = message :: outbox) :
      Moves s .deliver
        (({ s with worker := { s.worker with outbox := outbox } }).onWorkerMessage message)
  | workerError (message : String) : Moves s (.workerError message) (s.onWorkerError message)

theorem moves_of_step (h : s.step label = some s') : Moves s label s' := by
  cases label with
  | send kind =>
      cases h
      exact .send kind
  | receive turn =>
      unfold step at h
      simp only at h
      split at h
      · rename_i hready hinbox
        cases h
        exact .receive turn _ _ hready hinbox
      · cases h
  | settle number outcome =>
      unfold step at h
      simp only at h
      split at h
      · rename_i load hload
        cases h
        exact .settle number outcome load (List.mem_of_find?_eq_some hload)
      · cases h
  | resume turn =>
      unfold step at h
      simp only at h
      split at h
      · rename_i hready
        cases h
        exact .resume turn _ _ hready
      · cases h
  | wake turn =>
      unfold step at h
      simp only at h
      split at h
      · rename_i hready hyielding
        cases h
        exact .wake turn _ _ hready hyielding
      · cases h
  | deliver =>
      unfold step at h
      simp only at h
      split at h
      · rename_i houtbox
        cases h
        exact .deliver _ _ houtbox
      · cases h
  | workerError message =>
      cases h
      exact .workerError message

/-- Counts the places of one request. -/
def here (id : Nat) : Tally where
  req req := if req.id = id then 1 else 0
  done other := if other = id then 1 else 0
  loop loop := if loop.id = id then 1 else 0

/-- One for an id that was sent. -/
def sentOnce (nextId id : Nat) : Nat := if 1 ≤ id ∧ id < nextId then 1 else 0

theorem sentOnce_succ {nextId : Nat} (hpos : 1 ≤ nextId) (id : Nat) :
    sentOnce (nextId + 1) id = sentOnce nextId id + if nextId = id then 1 else 0 := by
  unfold sentOnce
  by_cases hid : nextId = id
  · rw [if_pos (by omega), if_neg (by omega), if_pos hid]
  · rw [if_neg hid]
    by_cases hlow : 1 ≤ id ∧ id < nextId
    · rw [if_pos (by omega), if_pos hlow]
    · rw [if_neg (by omega), if_neg hlow]

/-- The places of a request, answered included. -/
def places (s : System) (id : Nat) : Nat :=
  (s.inbox.map (here id).req).sum + (here id).sum s.worker + (answersOf s.worker.log).count id

/-- Every request is in one place, and what the records say of it is so. -/
structure Sound (s : System) : Prop where
  loads : s.worker.LoadsDistinct
  pos : 1 ≤ s.nextId
  once : ∀ id, s.places id = sentOnce s.nextId id
  numbered : receivedIds s.worker.log ++ s.inbox.map Request.id = List.range' 1 (s.nextId - 1)
  recorded : ∀ req ∈ s.worker.waiting, .received req ∈ s.worker.log
  epochs : ∀ loop ∈ s.worker.yielding, loop.epoch ≤ s.worker.runEpoch
  promised : ∀ id, s.pending.count id + (s.settled.map Prod.fst).count id =
    sentOnce s.nextId id
  posted : ∀ id, (repliesIn s.worker.outbox).count id ≤ (answersOf s.worker.log).count id
  undelivered : ∀ id ∈ s.pending,
    (repliesIn s.worker.outbox).count id = (answersOf s.worker.log).count id

theorem sound_start : start.Sound where
  loads := ⟨List.nodup_nil, nofun⟩
  pos := le_refl 1
  once id := by
    have hnone : sentOnce 1 id = 0 := if_neg (by omega)
    simp [places, start, EmulatorWorker.new, Tally.sum, EmulatorWorker.waiting, answersOf, hnone]
  numbered := rfl
  recorded := nofun
  epochs := nofun
  promised id := by
    have hnone : sentOnce 1 id = 0 := if_neg (by omega)
    simp [start, hnone]
  posted _ := le_refl 0
  undelivered := nofun

theorem count_singleton_ite (id x : Nat) : [id].count x = if id = x then 1 else 0 := by
  rw [List.count_singleton]
  by_cases h : id = x <;> simp [h]

/-- A handler that goes on puts its request in one place. -/
theorem places_handled {w w' : EmulatorWorker} {id : Nat} {fate : Fate} {events : List Event}
    (h : w.Handled w' id fate events) (x : Nat) :
    (here x).sum w' + (answersOf w'.log).count x =
      (here x).sum w + (answersOf w.log).count x + if id = x then 1 else 0 := by
  rw [h.sum, h.log, answersOf_append, h.answers, List.count_append]
  have hown := h.own
  cases fate with
  | answered reply =>
      simp only [Fate.tasks, Fate.loops, Fate.answers, List.map_nil, List.sum_nil,
        count_singleton_ite]
      omega
  | finishing result =>
      simp only [Fate.tasks, Fate.loops, Fate.answers, List.map_cons, List.map_nil, List.sum_cons,
        List.sum_nil, Tally.task, here, List.count_nil]
      omega
  | yielding loop =>
      have hid := hown loop (List.mem_singleton_self loop)
      simp only [Fate.tasks, Fate.loops, Fate.answers, List.map_cons, List.map_nil, List.sum_cons,
        List.sum_nil, here, hid, List.count_nil]
      omega

/-- What is recorded of requests stays so when a handler goes on. -/
theorem Sound.handled {w w' : EmulatorWorker} {id : Nat} {fate : Fate} {events : List Event}
    (hs : s.Sound) (h : w.Handled w' id fate events) (hloads : w.loading = s.worker.loading)
    (hnumber : w.loads = s.worker.loads) (hlog : w.log = s.worker.log)
    (houtbox : w.outbox = s.worker.outbox) (hepoch : w.runEpoch = s.worker.runEpoch)
    (hyielding : ∀ loop ∈ w.yielding, loop ∈ s.worker.yielding)
    (hloops : ∀ next ∈ fate.loops, next.epoch ≤ w.runEpoch)
    (honce : ∀ x, (here x).sum w + (if id = x then 1 else 0) = (here x).sum s.worker) :
    { s with worker := w' }.Sound := by
  constructor
  · apply h.loadsDistinct
    exact ⟨hloads ▸ hs.loads.nodup, hloads ▸ hnumber ▸ hs.loads.below⟩
  · exact hs.pos
  · intro x
    have hplaces := places_handled h x
    have hbefore := hs.once x
    have hmoved := honce x
    unfold places at hbefore ⊢
    rw [hlog] at hplaces
    simp only at hplaces ⊢
    omega
  · simp only [h.log, receivedIds_append, h.received, List.append_nil, hlog]
    exact hs.numbered
  · intro req hreq
    have hwaiting : w'.waiting = s.worker.waiting := by
      unfold EmulatorWorker.waiting
      rw [h.loading, hloads]
    rw [hwaiting] at hreq
    show _ ∈ w'.log
    rw [h.log, hlog]
    exact List.mem_append_left _ (hs.recorded req hreq)
  · intro loop hloop
    show _ ≤ w'.runEpoch
    rw [h.runEpoch]
    have hmem : loop ∈ w'.yielding := hloop
    rw [h.yielding] at hmem
    rcases List.mem_append.mp hmem with hmem | hmem
    · rw [hepoch]
      exact hs.epochs loop (hyielding loop hmem)
    · exact hloops loop hmem
  · exact hs.promised
  · intro x
    have hbefore := hs.posted x
    simp only [h.posted, h.log, answersOf_append, h.answers, houtbox, hlog, List.count_append]
    omega
  · intro x hx
    have hbefore := hs.undelivered x hx
    simp only [h.posted, h.log, answersOf_append, h.answers, houtbox, hlog, List.count_append]
    omega

/-- A message the worker takes. -/
theorem Sound.receive (hs : s.Sound) {req : Request} {inbox : List Request}
    (hinbox : s.inbox = req :: inbox) (turn : Turn) :
    { s with inbox := inbox, worker := s.worker.onMessage req turn }.Sound := by
  have hnumbered := hs.numbered
  have honce := hs.once
  rw [hinbox] at hnumbered
  unfold places at honce
  rw [hinbox] at honce
  simp only [List.map_cons, List.sum_cons] at hnumbered honce
  have hanswers : answersOf (s.worker.log ++ [.received req]) = answersOf s.worker.log := by
    rw [answersOf_append]
    exact List.append_nil _
  rcases EmulatorWorker.onMessage_cases hs.loads req turn with
    ⟨reply, h, -, -, -⟩ | ⟨-, hkept⟩
  · have hlog : answersOf (s.worker.note (.received req)).log = answersOf s.worker.log := hanswers
    have houtbox : (s.worker.note (.received req)).outbox = s.worker.outbox := rfl
    constructor
    · exact h.loadsDistinct ⟨hs.loads.nodup, hs.loads.below⟩
    · exact hs.pos
    · intro x
      have hplaces := places_handled h x
      have hbefore := honce x
      have hnoted : (here x).sum (s.worker.note (.received req)) = (here x).sum s.worker := rfl
      rw [hnoted, hlog] at hplaces
      unfold places
      simp only [here] at hplaces hbefore ⊢
      omega
    · simp only [h.log, receivedIds_append, h.received, List.append_nil]
      rw [← hnumbered]
      simp [EmulatorWorker.note, receivedIds]
    · intro other hother
      have hwaiting : (s.worker.onMessage req turn).waiting = s.worker.waiting := by
        unfold EmulatorWorker.waiting
        rw [h.loading]
        rfl
      have hmem : other ∈ (s.worker.onMessage req turn).waiting := hother
      rw [hwaiting] at hmem
      show _ ∈ (s.worker.onMessage req turn).log
      rw [h.log]
      exact List.mem_append_left _ (List.mem_append_left _ (hs.recorded other hmem))
    · intro loop hloop
      have hmem : loop ∈ (s.worker.onMessage req turn).yielding := hloop
      rw [h.yielding] at hmem
      have hmem : loop ∈ s.worker.yielding := by
        simpa [Fate.loops, EmulatorWorker.note] using hmem
      show _ ≤ (s.worker.onMessage req turn).runEpoch
      rw [h.runEpoch]
      exact hs.epochs loop hmem
    · exact hs.promised
    · intro x
      have hbefore := hs.posted x
      simp only [h.posted, h.log, answersOf_append, h.answers, houtbox, hlog, List.count_append]
      exact Nat.add_le_add_right hbefore _
    · intro x hx
      have hbefore := hs.undelivered x hx
      simp only [h.posted, h.log, answersOf_append, h.answers, houtbox, hlog, List.count_append]
      exact congrArg (· + _) hbefore
  · constructor
    · exact hkept.loadsDistinct
    · exact hs.pos
    · intro x
      have hbefore := honce x
      unfold places
      simp only [hkept.sum, hkept.log, hanswers]
      omega
    · simp only [hkept.log, receivedIds_append]
      rw [← hnumbered, List.append_assoc]
      rfl
    · intro other hother
      show _ ∈ (s.worker.onMessage req turn).log
      rw [hkept.log]
      rcases hkept.waiting other hother with rfl | hmem
      · exact List.mem_append_right _ (List.mem_singleton_self _)
      · exact List.mem_append_left _ (hs.recorded other hmem)
    · intro loop hloop
      have hmem : loop ∈ (s.worker.onMessage req turn).yielding := hloop
      rw [hkept.yielding] at hmem
      show _ ≤ (s.worker.onMessage req turn).runEpoch
      rw [hkept.runEpoch]
      exact (hs.epochs loop hmem).trans (Nat.le_add_right _ _)
    · exact hs.promised
    · simp only [hkept.outbox, hkept.log, hanswers]
      exact hs.posted
    · simp only [hkept.outbox, hkept.log, hanswers]
      exact hs.undelivered

theorem Sound.settle (hs : s.Sound) {load : Load} (hload : load ∈ s.worker.loading)
    (outcome : Except Thrown Unit) :
    { s with worker := s.worker.settle load outcome }.Sound := by
  have hwaiting : ∀ req ∈ (s.worker.settle load outcome).waiting, req ∈ s.worker.waiting := by
    intro req hreq
    obtain ⟨other, hother, hmem⟩ := List.mem_flatMap.mp hreq
    refine List.mem_flatMap.mpr ⟨other, ?_, hmem⟩
    rcases outcome with e | ⟨⟩
    · exact List.mem_of_mem_filter hother
    · exact List.mem_of_mem_filter hother
  have hlog : (s.worker.settle load outcome).log = s.worker.log := by
    rcases outcome with e | ⟨⟩ <;> rfl
  constructor
  · exact EmulatorWorker.loadsDistinct_settle hs.loads load outcome
  · exact hs.pos
  · intro x
    have hbefore := hs.once x
    unfold places at hbefore ⊢
    simp only [EmulatorWorker.sum_settle hs.loads hload, hlog]
    exact hbefore
  · simp only [hlog]
    exact hs.numbered
  · intro req hreq
    simp only [hlog]
    exact hs.recorded req (hwaiting req hreq)
  · intro loop hloop
    rcases outcome with e | ⟨⟩
    · exact hs.epochs loop hloop
    · exact hs.epochs loop hloop
  · exact hs.promised
  · rcases outcome with e | ⟨⟩ <;> exact hs.posted
  · rcases outcome with e | ⟨⟩ <;> exact hs.undelivered

/-- Every step keeps the books. -/
theorem Sound.step (hs : s.Sound) (h : s.step label = some s') : s'.Sound := by
  have hpos := hs.pos
  cases moves_of_step h with
  | send kind =>
      refine ⟨hs.loads, Nat.le_succ_of_le hpos, ?_, ?_, hs.recorded, hs.epochs, ?_, hs.posted, ?_⟩
      · intro x
        have hbefore := hs.once x
        unfold places at hbefore ⊢
        simp only [send, List.map_append, List.sum_append, List.map_cons, List.map_nil,
          List.sum_cons, List.sum_nil, sentOnce_succ hpos]
        have hnew : (here x).req ⟨s.nextId, kind⟩ = if s.nextId = x then 1 else 0 := rfl
        omega
      · simp only [send, List.map_append, List.map_cons, List.map_nil]
        rw [← List.append_assoc, hs.numbered]
        have hnext : s.nextId + 1 - 1 = (s.nextId - 1) + 1 := by omega
        rw [hnext, List.range'_1_concat]
        congr 2
        omega
      · intro x
        have hbefore := hs.promised x
        simp only [send, List.count_append, count_singleton_ite, sentOnce_succ hpos]
        omega
      · intro x hx
        rcases List.mem_append.mp hx with hx | hx
        · exact hs.undelivered x hx
        · obtain rfl := List.mem_singleton.mp hx
          have hunsent : sentOnce s.nextId s.nextId = 0 := if_neg (by omega)
          have honce := hs.once s.nextId
          have hposted := hs.posted s.nextId
          unfold places at honce
          simp only [send]
          omega
  | receive turn req inbox hready hinbox =>
      exact hs.receive hinbox turn
  | settle number outcome load hload =>
      exact hs.settle hload outcome
  | resume turn task ready hready =>
      obtain ⟨fate, events, hhandled, hloops⟩ := EmulatorWorker.handled_resume
        { s.worker with ready := ready } task turn
      refine hs.handled hhandled rfl rfl rfl rfl rfl (fun _ h => h)
        (fun next hnext => (hloops next hnext).1.le) ?_
      intro x
      have htask : (here x).task task = if task.id = x then 1 else 0 := by
        cases task <;> rfl
      unfold Tally.sum
      rw [hready]
      simp only [List.map_cons, List.sum_cons, htask, EmulatorWorker.waiting]
      omega
  | wake turn loop yielding hready hyielding =>
      obtain ⟨fate, events, hhandled, -, hloops⟩ := EmulatorWorker.handled_wake
        { s.worker with yielding := yielding } loop turn
      have hepoch := hs.epochs loop (by rw [hyielding]; exact List.mem_cons_self)
      refine hs.handled hhandled rfl rfl rfl rfl rfl
        (fun other hother => by rw [hyielding]; exact List.mem_cons_of_mem _ hother)
        (fun next hnext => (hloops next hnext).1.trans_le hepoch) ?_
      intro x
      unfold Tally.sum
      rw [hyielding]
      simp only [List.map_cons, List.sum_cons, here, EmulatorWorker.waiting]
      omega
  | deliver message outbox houtbox =>
      have hposted := hs.posted
      have hundelivered := hs.undelivered
      rw [houtbox] at hposted hundelivered
      cases message with
      | heartbeat =>
          exact ⟨⟨hs.loads.nodup, hs.loads.below⟩, hs.pos, hs.once, hs.numbered, hs.recorded,
            hs.epochs, hs.promised, hposted, hundelivered⟩
      | reply id reply =>
          have hcons : ∀ x, (repliesIn (.reply id reply :: outbox)).count x =
              (repliesIn outbox).count x + if id = x then 1 else 0 := by
            intro x
            have happend := repliesIn_append [.reply id reply] outbox
            rw [List.singleton_append] at happend
            rw [happend, List.count_append]
            have hone := count_singleton_ite id x
            rw [Nat.add_comm, ← hone]
            rfl
          have hposted' : ∀ x, (repliesIn outbox).count x ≤ (answersOf s.worker.log).count x := by
            intro x
            have hbefore := hposted x
            rw [hcons] at hbefore
            omega
          have hundelivered' : ∀ x ∈ s.pending, x ≠ id →
              (repliesIn outbox).count x = (answersOf s.worker.log).count x := by
            intro x hx hne
            have hbefore := hundelivered x hx
            rw [hcons, if_neg hne.symm] at hbefore
            exact hbefore
          have hone := hs.promised id
          have hle : sentOnce s.nextId id ≤ 1 := by
            unfold sentOnce
            split <;> omega
          unfold onWorkerMessage
          simp only
          split
          · rename_i hmem
            have hcount : 1 ≤ s.pending.count id := List.count_pos_iff.mpr hmem
            refine ⟨⟨hs.loads.nodup, hs.loads.below⟩, hs.pos, hs.once, hs.numbered, hs.recorded,
              hs.epochs, ?_, hposted', ?_⟩
            · intro x
              have hbefore := hs.promised x
              simp only [List.map_append, List.count_append, List.map_cons, List.map_nil,
                count_singleton_ite, List.count_erase]
              by_cases hx : id = x
              · subst hx
                simp only [if_true, beq_self_eq_true]
                omega
              · rw [if_neg hx]
                simp only [beq_eq_false_iff_ne.mpr hx, Bool.false_eq_true, if_false]
                omega
            · intro x hx
              refine hundelivered' x (List.mem_of_mem_erase hx) ?_
              rintro rfl
              have hleft := List.count_pos_iff.mpr hx
              rw [List.count_erase_self] at hleft
              omega
          · rename_i hmem
            refine ⟨⟨hs.loads.nodup, hs.loads.below⟩, hs.pos, hs.once, hs.numbered, hs.recorded,
              hs.epochs, hs.promised, hposted', ?_⟩
            intro x hx
            exact hundelivered' x hx fun heq => hmem (heq ▸ hx)
  | workerError message =>
      refine ⟨hs.loads, hs.pos, hs.once, hs.numbered, hs.recorded, hs.epochs, ?_, hs.posted, nofun⟩
      intro x
      have hbefore := hs.promised x
      have hall : (s.pending.map fun id => (id, Reply.error message)).map Prod.fst = s.pending := by
        rw [List.map_map]
        exact List.map_id s.pending
      simp only [onWorkerError, List.count_nil, List.map_append, List.count_append, hall]
      omega

end System

end Worker

end Playground
