/-
Every request is in one place at a time: on its way, waiting for the module, ready to go on,
at the yield of its run, or answered.  Each step of the worker's own moves one on, and uses
up some of the work there is.
-/
import Playground.Worker.Handling

namespace Playground

namespace Worker

/-- A number for every place a request can be in. -/
structure Tally where
  req : Request → Nat
  done : Nat → Nat
  loop : RunLoop → Nat

namespace Tally

variable (t : Tally)

def task : Task → Nat
  | .go req _ => t.req req
  | .finish id _ => t.done id

/-- The sum over the requests the worker has in hand. -/
def sum (w : EmulatorWorker) : Nat :=
  (w.waiting.map t.req).sum + (w.ready.map t.task).sum + (w.yielding.map t.loop).sum

end Tally

namespace EmulatorWorker

variable {w w' : EmulatorWorker} {id : Nat} {fate : Fate} {events : List Event} {t : Tally}

/-- No two loads have a number, and the next one is new. -/
structure LoadsDistinct (w : EmulatorWorker) : Prop where
  nodup : (w.loading.map Load.number).Nodup
  below : ∀ load ∈ w.loading, load.number < w.loads

theorem Handled.sum (h : w.Handled w' id fate events) :
    t.sum w' = t.sum w + ((fate.tasks id).map t.task).sum + (fate.loops.map t.loop).sum := by
  unfold Tally.sum waiting
  rw [h.loading, h.ready, h.yielding]
  simp only [List.map_append, List.sum_append]
  omega

theorem Handled.loadsDistinct (h : w.Handled w' id fate events) (hw : w.LoadsDistinct) :
    w'.LoadsDistinct := by
  constructor
  · rw [h.loading]
    exact hw.nodup
  · rw [h.loading, h.loads]
    exact hw.below

section Waiting

variable {loading : List Load} {n : Nat} {req : Request}

/-- One of the loads gets one more handler. -/
theorem sum_waiting_add (hnodup : (loading.map Load.number).Nodup)
    (h : ∃ load ∈ loading, load.number = n) (g : Request → Nat) :
    (((loading.map fun load =>
      if load.number = n then { load with waiting := load.waiting ++ [req] } else load).flatMap
        Load.waiting).map g).sum = ((loading.flatMap Load.waiting).map g).sum + g req := by
  induction loading with
  | nil => simp at h
  | cons load rest ih =>
      obtain ⟨hnot, hrest⟩ := List.nodup_cons.mp hnodup
      simp only [List.map_cons, List.flatMap_cons, List.map_append, List.sum_append]
      by_cases hn : load.number = n
      · have hsame : (rest.map fun load =>
            if load.number = n then { load with waiting := load.waiting ++ [req] } else load) =
            rest := by
          refine (List.map_congr_left fun other hother => ?_).trans (List.map_id rest)
          exact if_neg fun hsame => hnot (List.mem_map.mpr ⟨other, hother, hsame.trans hn.symm⟩)
        rw [hsame, if_pos hn]
        simp only [List.map_append, List.sum_append, List.map_cons, List.map_nil, List.sum_cons,
          List.sum_nil]
        omega
      · have hlater : ∃ load ∈ rest, load.number = n := by
          obtain ⟨other, hmem, hother⟩ := h
          rcases List.mem_cons.mp hmem with rfl | hmem
          · exact absurd hother hn
          · exact ⟨other, hmem, hother⟩
        rw [if_neg hn, ih hrest hlater]
        omega

theorem find_isSome_of_any (h : (loading.any fun load => load.number = n) = true) :
    ∃ load ∈ loading, load.number = n := by
  obtain ⟨load, hmem, hn⟩ := List.any_eq_true.mp h
  exact ⟨load, hmem, of_decide_eq_true hn⟩

theorem numbers_add (loading : List Load) (n : Nat) (req : Request) :
    (loading.map fun load =>
      if load.number = n then { load with waiting := load.waiting ++ [req] } else load).map
        Load.number = loading.map Load.number := by
  rw [List.map_map]
  apply List.map_congr_left
  intro load _
  simp only [Function.comp]
  split <;> rfl

/-- A load that is over is taken out with its handlers. -/
theorem sum_waiting_remove {load : Load} (hnodup : (loading.map Load.number).Nodup)
    (h : load ∈ loading) (g : Request → Nat) :
    ((loading.flatMap Load.waiting).map g).sum =
      (((loading.filter fun other => other.number ≠ load.number).flatMap Load.waiting).map g).sum +
        (load.waiting.map g).sum := by
  induction loading with
  | nil => cases h
  | cons first rest ih =>
      obtain ⟨hnot, hrest⟩ := List.nodup_cons.mp hnodup
      rcases List.mem_cons.mp h with rfl | hmem
      · have hsame : rest.filter (fun other => other.number ≠ load.number) = rest := by
          apply List.filter_eq_self.mpr
          intro other hother
          simp only [ne_eq, decide_not, Bool.not_eq_eq_eq_not, Bool.not_true,
            decide_eq_false_iff_not]
          exact fun hn => hnot (List.mem_map.mpr ⟨other, hother, hn⟩)
        rw [List.filter_cons_of_neg (by simp), hsame]
        simp only [List.flatMap_cons, List.map_append, List.sum_append]
        omega
      · have hne : first.number ≠ load.number :=
          fun hn => hnot (List.mem_map.mpr ⟨load, hmem, hn.symm⟩)
        rw [List.filter_cons_of_pos (by simpa using hne)]
        simp only [List.flatMap_cons, List.map_append, List.sum_append]
        rw [ih hrest hmem]
        omega

end Waiting

/-- A message that is kept until the module is there. -/
structure Kept (w w' : EmulatorWorker) (req : Request) : Prop where
  log : w'.log = w.log ++ [.received req]
  pauseRequested : w'.pauseRequested = w.pauseRequested
  runEpoch : w'.runEpoch = w.runEpoch + req.kind.replaces.toNat
  yielding : w'.yielding = w.yielding
  outbox : w'.outbox = w.outbox
  sum : ∀ t : Tally, t.sum w' = t.sum w + t.req req
  loading : w'.loading.length ≤ w.loading.length + 1
  loadsDistinct : w'.LoadsDistinct
  waiting : ∀ other ∈ w'.waiting, other = req ∨ other ∈ w.waiting
  ready : w'.ready = w.ready ∨ w'.ready = w.ready ++ [.go req (.ok ())]

theorem kept_ensureWasm (hw : w.LoadsDistinct) (req : Request) :
    w.Kept (({ w.note (.received req) with
      runEpoch := w.runEpoch + req.kind.replaces.toNat }).ensureWasm req) req := by
  unfold ensureWasm note
  simp only
  split
  · rename_i n hready
    split
    · rename_i hpending
      refine ⟨rfl, rfl, rfl, rfl, rfl, ?_, ?_, ?_, ?_, .inl rfl⟩
      · intro t
        unfold Tally.sum waiting
        simp only [sum_waiting_add hw.nodup (find_isSome_of_any hpending)]
        omega
      · rw [List.length_map]
        omega
      · constructor
        · rw [numbers_add]
          exact hw.nodup
        · intro load hload
          obtain ⟨other, hother, rfl⟩ := List.mem_map.mp hload
          have hbelow := hw.below other hother
          split
          · exact hbelow
          · exact hbelow
      · intro other hother
        obtain ⟨load, hload, hmem⟩ := List.mem_flatMap.mp hother
        obtain ⟨first, hfirst, rfl⟩ := List.mem_map.mp hload
        split at hmem
        · rcases List.mem_append.mp hmem with hmem | hmem
          · exact .inr (List.mem_flatMap.mpr ⟨first, hfirst, hmem⟩)
          · exact .inl (List.mem_singleton.mp hmem)
        · exact .inr (List.mem_flatMap.mpr ⟨first, hfirst, hmem⟩)
    · refine ⟨rfl, rfl, rfl, rfl, rfl, ?_, Nat.le_succ _, ⟨hw.nodup, hw.below⟩, fun _ h => .inr h,
        .inr rfl⟩
      intro t
      unfold Tally.sum waiting
      simp only [List.map_append, List.sum_append, List.map_cons, List.map_nil, List.sum_cons,
        List.sum_nil, Tally.task]
      omega
  · refine ⟨rfl, rfl, rfl, rfl, rfl, ?_, ?_, ?_, ?_, .inl rfl⟩
    · intro t
      unfold Tally.sum waiting
      simp only [List.flatMap_append, List.flatMap_cons, List.flatMap_nil, List.append_nil,
        List.map_append, List.sum_append, List.map_cons, List.map_nil, List.sum_cons, List.sum_nil]
      omega
    · simp
    · constructor
      · rw [List.map_append]
        refine List.nodup_append.mpr ⟨hw.nodup, List.nodup_singleton _, ?_⟩
        intro number hnumber other hother
        obtain ⟨load, hload, rfl⟩ := List.mem_map.mp hnumber
        rw [List.map_singleton, List.mem_singleton] at hother
        exact hother ▸ Nat.ne_of_lt (hw.below load hload)
      · intro load hload
        rcases List.mem_append.mp hload with hload | hload
        · exact Nat.lt_succ_of_lt (hw.below load hload)
        · obtain rfl := List.mem_singleton.mp hload
          exact Nat.lt_succ_self w.loads
    · intro other hother
      unfold waiting at hother
      rw [List.flatMap_append] at hother
      rcases List.mem_append.mp hother with hmem | hmem
      · exact .inr hmem
      · exact .inl (by simpa using hmem)

/-- What a message does: its request is answered at once, or kept. -/
theorem onMessage_cases (hw : w.LoadsDistinct) (req : Request) (turn : Turn) :
    (∃ reply, (w.note (.received req)).Handled (w.onMessage req turn) req.id (.answered reply)
        [.replied req.id reply] ∧ req.kind.replaces = false ∧
        (req.kind = .pause → (w.onMessage req turn).pauseRequested = true) ∧
        (w.pauseRequested = true → (w.onMessage req turn).pauseRequested = true)) ∨
      (req.kind ≠ .pause ∧ w.Kept (w.onMessage req turn) req) := by
  have hsnapshot : ∃ reply, (w.note (.received req)).Handled
      ((w.note (.received req)).answerSnapshot req.id .ok turn.snapshot) req.id (.answered reply)
      [.replied req.id reply] := by
    obtain ⟨reply, h, -⟩ := handled_answerSnapshot (w.note (.received req)) req.id .ok turn.snapshot
    exact ⟨reply, h⟩
  have hflag : ((w.note (.received req)).answerSnapshot req.id .ok turn.snapshot).pauseRequested =
      w.pauseRequested := by
    unfold answerSnapshot fail
    rcases turn.snapshot with e | ⟨⟩
    · simp only
      split <;> rfl
    · rfl
  have hkept := kept_ensureWasm hw req
  unfold onMessage
  simp only
  split
  · rename_i hkind
    obtain ⟨reply, h⟩ := hsnapshot
    refine .inl ⟨reply, h, by rw [hkind]; rfl, fun hpause => ?_,
      fun hpause => by rw [hflag, hpause]⟩
    rw [hkind] at hpause
    cases hpause
  · rename_i hkind
    obtain ⟨reply, h⟩ := hsnapshot
    refine .inl ⟨reply, h, by rw [hkind]; rfl, fun hpause => ?_,
      fun hpause => by rw [hflag, hpause]⟩
    rw [hkind] at hpause
    cases hpause
  · rename_i hkind
    refine .inl ⟨.ok, ?_, by rw [hkind]; rfl, fun _ => rfl, fun _ => rfl⟩
    exact ⟨rfl, by simp [Event.id], rfl, rfl, rfl, by simp [note, answer, Fate.tasks],
      by simp [note, answer, Fate.loops], by simp [Fate.loops], rfl, rfl,
      by simp [note, answer, Fate.posts], repliesIn_append _ _, fun _ _ => rfl⟩
  · rename_i hpause
    refine .inr ⟨hpause, ?_⟩
    split
    · rename_i hreplaces
      rw [hreplaces] at hkept
      exact hkept
    · rename_i hreplaces
      rw [Bool.eq_false_of_not_eq_true hreplaces] at hkept
      exact hkept

/-- A load that is over leaves its handlers ready to go on. -/
theorem sum_settle (hw : w.LoadsDistinct) {load : Load} (hload : load ∈ w.loading)
    (outcome : Except Thrown Unit) (t : Tally) : t.sum (w.settle load outcome) = t.sum w := by
  have hwaiting := sum_waiting_remove hw.nodup hload t.req
  have hgo : ((load.waiting.map fun req => Task.go req outcome).map t.task).sum =
      (load.waiting.map t.req).sum := by
    rw [List.map_map]
    rfl
  rcases outcome with e | ⟨⟩ <;>
  · unfold Tally.sum settle waiting at *
    simp only [List.map_append, List.sum_append, hgo]
    omega

theorem loadsDistinct_settle (hw : w.LoadsDistinct) (load : Load) (outcome : Except Thrown Unit) :
    (w.settle load outcome).LoadsDistinct := by
  have hsub : (w.loading.filter fun other => other.number ≠ load.number).Sublist w.loading :=
    List.filter_sublist
  rcases outcome with e | ⟨⟩
  · exact ⟨(hsub.map _).nodup hw.nodup, fun other hother => hw.below other (hsub.mem hother)⟩
  · exact ⟨(hsub.map _).nodup hw.nodup, fun other hother => hw.below other (hsub.mem hother)⟩

end EmulatorWorker

end Worker

end Playground
