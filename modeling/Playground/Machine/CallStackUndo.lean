/-
Stepping the call stack back.  One event of a step either pushes an activation
or removes some, never both; after it the watch over the step's writes may
change hits in place.
-/
import Playground.Machine.CallStack

namespace Playground

/-- Edits of different fields commute, wherever they are. -/
theorem modify_comm {α : Type*} (l : List α) (i j : Nat) {f g : α → α}
    (h : ∀ a, f (g a) = g (f a)) : (l.modify j g).modify i f = (l.modify i f).modify j g := by
  apply List.ext_getElem?
  intro k
  simp only [List.getElem?_modify]
  cases l[k]? with
  | none => rfl
  | some a => by_cases hi : i = k <;> by_cases hj : j = k <;> simp [hi, hj, h]

theorem revertAll_comm {σ ε ε' : Type*} {f : ε → σ → σ} {g : ε' → σ → σ}
    (h : ∀ e e' s, f e (g e' s) = g e' (f e s)) (es : List ε) (es' : List ε') (s : σ) :
    Journal.revertAll f es (Journal.revertAll g es' s) =
      Journal.revertAll g es' (Journal.revertAll f es s) := by
  induction es with
  | nil => rfl
  | cons e es ih =>
      have hpast : ∀ (es' : List ε') (s : σ),
          f e (Journal.revertAll g es' s) = Journal.revertAll g es' (f e s) := by
        intro es' s
        induction es' with
        | nil => rfl
        | cons e' es' ihe => rw [Journal.revertAll_cons, h, ihe, Journal.revertAll_cons]
      rw [Journal.revertAll_cons, ih, hpast, Journal.revertAll_cons]

theorem revertHit_revertMark (hit : Nat × Hit × Hit) (mark : Nat × Word × BitVec 8 × Word)
    (acts : List Activation) :
    revertHit hit (revertMark mark acts) = revertMark mark (revertHit hit acts) :=
  modify_comm acts hit.1 mark.1 fun _ => rfl

theorem take_modify {α : Type*} (l : List α) (i n : Nat) (f : α → α) :
    (l.modify i f).take n = (l.take n).modify i f := by
  apply List.ext_getElem?
  intro k
  simp only [List.getElem?_take, List.getElem?_modify]
  split <;> rfl

theorem modify_append_left {α : Type*} (l l' : List α) {i : Nat} (hi : i < l.length)
    (f : α → α) : (l ++ l').modify i f = l.modify i f ++ l' := by
  apply List.ext_getElem?
  intro k
  rw [List.getElem?_modify]
  by_cases hk : k < l.length
  · rw [List.getElem?_append_left hk, List.getElem?_append_left (by simpa using hk),
      List.getElem?_modify]
  · have hne : i ≠ k := by omega
    rw [List.getElem?_append_right (by omega), List.getElem?_append_right (by simpa using hk)]
    simp [hne]

/-- Hits put back on a stack that lost its top or grew past `n`. -/
theorem revertAll_hit_restack (hits : List (Nat × Hit × Hit)) (acts : List Activation)
    (n : Nat) (removed : List Activation) (hin : ∀ h ∈ hits, h.1 < acts.length)
    (hwhole : removed = [] ∨ acts.length = n) :
    Journal.revertAll revertHit hits (acts.take n ++ removed) =
      (Journal.revertAll revertHit hits acts).take n ++ removed := by
  induction hits with
  | nil => rfl
  | cons hit hits ih =>
      have hlen : (Journal.revertAll revertHit hits acts).length = acts.length := by
        clear ih hin
        induction hits with
        | nil => rfl
        | cons hit hits ih => rw [Journal.revertAll_cons, revertHit, List.length_modify, ih]
      have hhit : hit.1 < acts.length := hin hit List.mem_cons_self
      rw [Journal.revertAll_cons, ih fun h hmem => hin h (List.mem_cons_of_mem _ hmem),
        Journal.revertAll_cons]
      rcases hwhole with rfl | hn
      · rw [List.append_nil, List.append_nil, revertHit, revertHit, take_modify]
      · rw [revertHit, revertHit, take_modify, modify_append_left]
        rw [List.length_take, hlen]
        omega

namespace CallStack

/-- The stack `t` with log `log` is partway through a step that began in `s`. -/
structure Recorded (s t : CallStack) (log : FrameUndo) : Prop where
  whole : log.removed = [] ∨ t.acts.length = log.len - log.removed.length
  inside : ∀ h ∈ log.hit, h.1 < t.acts.length
  acts : Journal.revertAll revertMark log.marked (Journal.revertAll revertHit log.hit
    (t.acts.take (log.len - log.removed.length) ++ log.removed.reverse)) = s.acts
  uncounted : log.uncounted = s.uncounted
  badReturn : log.badReturn.getD t.badReturn = s.badReturn
  tree : CallTree.Recorded s.tree t.tree log.tree

variable {s t : CallStack} {log : FrameUndo}

theorem undoStep_of_recorded (h : Recorded s t log) :
    t.undoStep log = s := by
  have hacts := h.acts
  rw [← revertAll_comm revertHit_revertMark] at hacts
  have htree := CallTree.undoStep_of_recorded h.tree
  unfold undoStep
  simp only [hacts, h.uncounted, h.badReturn, htree]

theorem recorded_recordUndo (s : CallStack) : Recorded s s s.recordUndo := by
  refine ⟨.inl rfl, by simp [recordUndo], ?_, rfl, rfl, CallTree.recorded_recordUndo _⟩
  simp [recordUndo]

/-- A step that has pushed and removed nothing so far. -/
structure Quiet (s t : CallStack) (log : FrameUndo) : Prop where
  recorded : Recorded s t log
  len : log.len = t.acts.length
  removed : log.removed = []

theorem quiet_recordUndo (s : CallStack) : Quiet s s s.recordUndo :=
  ⟨recorded_recordUndo s, rfl, rfl⟩

/-- An operation on the tree alone keeps the way back. -/
theorem Recorded.onTree (h : Recorded s t log)
    (op : CallTree → Option TreeUndo → CallTree × Option TreeUndo)
    (hop : ∀ {treeLog}, CallTree.Recorded s.tree t.tree treeLog →
      ∃ log', (op t.tree (some treeLog)).2 = some log' ∧
        CallTree.Recorded s.tree (op t.tree (some treeLog)).1 log') :
    ∃ tree treeLog, t.onTree (some log) op =
        ({ t with tree := tree }, some { log with tree := treeLog }) ∧
      Recorded s { t with tree := tree } { log with tree := treeLog } := by
  obtain ⟨treeLog, hlog, hrec⟩ := hop h.tree
  refine ⟨(op t.tree (some log.tree)).1, treeLog, ?_, h.whole, h.inside, h.acts, h.uncounted,
    h.badReturn, hrec⟩
  simp [CallStack.onTree, hlog]

/-- Pushing an activation keeps the way back when the step removed none. -/
theorem Recorded.push (h : Recorded s t log)
    (hremoved : log.removed = []) (hlen : log.len ≤ t.acts.length) (a : Activation) (x0 : Word) :
    ∃ t' log', t.push a x0 (some log) = (t', some log') ∧ Recorded s t' log' := by
  obtain ⟨tree, treeLog, hvalue, hrec⟩ := h.onTree
    (fun tree treeLog => tree.enter a.entry x0 treeLog) fun hr => hr.enter a.entry x0
  unfold CallStack.push
  rw [hvalue]
  simp only
  split
  · exact ⟨_, _, rfl, hrec.whole, hrec.inside, hrec.acts, hrec.uncounted, hrec.badReturn,
      hrec.tree⟩
  · refine ⟨_, _, rfl, .inl hremoved, fun hit hmem => ?_, ?_, hrec.uncounted, hrec.badReturn,
      hrec.tree⟩
    · have hin := h.inside hit hmem
      simp only [List.length_append, List.length_singleton]
      omega
    · have hacts := h.acts
      simp only
      rw [List.take_append_of_le_length (by omega)]
      exact hacts

theorem mark_quiet (record : Word) (flags : BitVec 8) (lastRet : Word) :
    ∃ t log, s.mark record flags lastRet (some s.recordUndo) = (t, some log) ∧
      Quiet s t log := by
  unfold CallStack.mark
  cases htop : s.acts.getLast? with
  | none => exact ⟨_, _, rfl, quiet_recordUndo s⟩
  | some a =>
      have hlen : (revertMark (s.acts.length - 1, record, flags, lastRet) s.acts).length =
          s.acts.length := List.length_modify ..
      refine ⟨_, _, rfl, ⟨.inl rfl, by simp [recordUndo], ?_, rfl, rfl,
        CallTree.recorded_recordUndo _⟩, hlen.symm, rfl⟩
      simp only [recordUndo, List.nil_append, Journal.revertAll_cons, Journal.revertAll_nil,
        List.length_nil, Nat.sub_zero, List.reverse_nil, List.append_nil]
      rw [List.take_of_length_le hlen.le]
      apply List.ext_getElem?
      intro k
      rw [revertMark, revertMark, List.getElem?_modify, List.getElem?_modify]
      by_cases hk : s.acts.length - 1 = k
      · have hget : s.acts[k]? = some a := by
          rw [← hk, ← List.getLast?_eq_getElem?, htop]
        simp [hk, hget]
      · simp [hk]

theorem recorded_onLrStore (s : CallStack) :
    ∃ t log, s.onLrStore (some s.recordUndo) = (t, some log) ∧ Recorded s t log := by
  have hquiet : ∃ t log, (s, some s.recordUndo) = (t, some log) ∧ Recorded s t log :=
    ⟨_, _, rfl, recorded_recordUndo s⟩
  unfold onLrStore
  split
  · split
    · obtain ⟨t, log, hvalue, hq⟩ := mark_quiet (s := s) _ _ _
      exact ⟨t, log, hvalue, hq.recorded⟩
    · exact hquiet
  · exact hquiet

theorem recorded_onRuntimeCall (s : CallStack) (stubPc target : Word) (regs : Fin 32 → Word) :
    ∃ t log, s.onRuntimeCall stubPc target regs (some s.recordUndo) = (t, some log) ∧
      Recorded s t log :=
  (recorded_recordUndo s).push rfl le_rfl _ _

theorem settleCaller_quiet (s : CallStack) (pc sp fp : Word) (mem : Memory) :
    ∃ t log, s.settleCaller pc sp fp mem (some s.recordUndo) = (t, some log) ∧
      Quiet s t log := by
  unfold settleCaller
  split
  · simp only
    split
    · exact mark_quiet _ _ _
    · exact ⟨_, _, rfl, quiet_recordUndo s⟩
  · exact ⟨_, _, rfl, quiet_recordUndo s⟩

theorem recorded_onCall (s : CallStack) (pc target : Word) (intoProgram : Bool)
    (regs : Fin 32 → Word) (mem : Memory) :
    ∃ t log, s.onCall pc target intoProgram regs mem (some s.recordUndo) = (t, some log) ∧
      Recorded s t log := by
  obtain ⟨t, log, hvalue, hq⟩ := s.settleCaller_quiet pc (regs 31) (regs 29) mem
  unfold onCall
  simp only [hvalue]
  split
  · exact hq.recorded.push hq.removed hq.len.le _ _
  · exact ⟨t, log, rfl, hq.recorded⟩

/-- Removing the innermost activation keeps the way back while the step has
pushed none and changed none in place. -/
structure Shrinking (s t : CallStack) (log : FrameUndo) : Prop where
  recorded : Recorded s t log
  acts : s.acts = t.acts ++ log.removed.reverse
  len : log.len = s.acts.length
  marked : log.marked = []
  hit : log.hit = []

theorem shrinking_recordUndo (s : CallStack) : Shrinking s s s.recordUndo :=
  ⟨recorded_recordUndo s, by simp [recordUndo], rfl, rfl, rfl⟩

theorem Shrinking.unwind (h : Shrinking s t log) (n : Nat) (x0 : Word) (x0Width : Nat) :
    ∃ t' log', t.unwind n x0 x0Width (some log) = (t', some log') ∧ Shrinking s t' log' := by
  induction n generalizing t log with
  | zero => exact ⟨t, log, rfl, h⟩
  | succ n ih =>
      rw [CallStack.unwind]
      cases htop : t.acts.getLast? with
      | none => exact ⟨t, log, rfl, h⟩
      | some a =>
          have hsplit : t.acts = t.acts.dropLast ++ [a] :=
            (List.dropLast_append_getLast? a htop).symm
          have hacts : s.acts = t.acts.dropLast ++ (log.removed ++ [a]).reverse := by
            rw [h.acts]
            conv_lhs => rw [hsplit]
            simp
          have hpopped : Shrinking s { t with acts := t.acts.dropLast }
              { log with removed := log.removed ++ [a] } := by
            have hlen : log.len - (log.removed ++ [a]).length = t.acts.dropLast.length := by
              rw [h.len, hacts]
              simp
            refine ⟨⟨.inr hlen.symm, by simp [h.hit], ?_, h.recorded.uncounted,
              h.recorded.badReturn, h.recorded.tree⟩, hacts, h.len, h.marked, h.hit⟩
            simp only [h.marked, h.hit, Journal.revertAll_nil, hlen]
            rw [List.take_length, hacts]
          obtain ⟨tree, treeLog, hvalue, hrec⟩ := hpopped.recorded.onTree
            (fun tree treeLog => tree.leave x0 x0Width treeLog)
            fun hr => hr.leave x0 x0Width
          simp only [Option.map_some, hvalue]
          exact ih ⟨hrec, hpopped.acts, hpopped.len, hpopped.marked, hpopped.hit⟩

theorem recorded_strayReturn (s : CallStack) (call : Activation) (pc target : Word)
    (step : Nat) :
    ∃ t log, s.strayReturn call pc target step (some s.recordUndo) = (t, some log) ∧
      Recorded s t log := by
  have h := recorded_recordUndo s
  exact ⟨_, _, rfl, h.whole, h.inside, h.acts, h.uncounted, rfl, h.tree⟩

theorem recorded_onReturn (s : CallStack) (pc target : Word) (step : Nat)
    (regs : Fin 32 → Word) (x0Width : Nat) :
    ∃ t log, (s.onReturn pc target step regs x0Width (some s.recordUndo)).1 = (t, some log) ∧
      Recorded s t log := by
  have hunwind : ∀ n, ∃ t log, s.unwind n (regs 0) x0Width (some s.recordUndo) = (t, some log) ∧
      Recorded s t log := by
    intro n
    obtain ⟨t, log, hvalue, h⟩ := (shrinking_recordUndo s).unwind n (regs 0) x0Width
    exact ⟨t, log, hvalue, h.recorded⟩
  unfold onReturn
  split
  · have h := recorded_recordUndo s
    have hless : Recorded s { s with uncounted := s.uncounted - 1 } s.recordUndo :=
      ⟨h.whole, h.inside, h.acts, h.uncounted, h.badReturn, h.tree⟩
    obtain ⟨tree, treeLog, hvalue, hrec⟩ := hless.onTree
      (fun tree treeLog => tree.leave (regs 0) x0Width treeLog)
      fun hr => hr.leave (regs 0) x0Width
    exact ⟨_, _, hvalue, hrec⟩
  · split
    · split
      · exact hunwind 1
      · split
        · exact hunwind _
        · exact recorded_strayReturn s _ pc target step
    · exact recorded_strayReturn s _ pc target step

/-- Setting one activation's hits keeps the way back. -/
theorem Recorded.hit (h : Recorded s t log) {i : Nat}
    {a : Activation} (hi : t.acts[i]? = some a) (hits : Hit × Hit) :
    Recorded s { t with acts := revertHit (i, hits) t.acts }
      { log with hit := log.hit ++ [(i, a.fpHit, a.lrHit)] } := by
  obtain ⟨hlt, hget⟩ := List.getElem?_eq_some_iff.mp hi
  have hlen : (revertHit (i, hits) t.acts).length = t.acts.length := List.length_modify ..
  have hback : revertHit (i, a.fpHit, a.lrHit) (revertHit (i, hits) t.acts) = t.acts := by
    apply List.ext_getElem?
    intro k
    rw [revertHit, revertHit, List.getElem?_modify, List.getElem?_modify]
    by_cases hk : i = k
    · subst hk
      simp [hi]
    · simp [hk]
  have hwhole : log.removed.reverse = [] ∨
      (revertHit (i, hits) t.acts).length = log.len - log.removed.length := by
    rw [hlen]
    exact h.whole.imp_left fun h => by rw [h]; rfl
  refine ⟨?_, ?_, ?_, h.uncounted, h.badReturn, h.tree⟩
  · simp only [hlen]
    exact h.whole
  · intro hit hmem
    simp only [hlen]
    rcases List.mem_append.mp hmem with hmem | hmem
    · exact h.inside hit hmem
    · rw [List.mem_singleton] at hmem
      rw [hmem]
      exact hlt
  · have hlast := revertAll_hit_restack [(i, a.fpHit, a.lrHit)] (revertHit (i, hits) t.acts)
      (log.len - log.removed.length) log.removed.reverse
      (by simpa [hlen] using hlt) hwhole
    simp only [Journal.revertAll_cons, Journal.revertAll_nil, hback] at hlast
    simp only [Journal.revertAll_append, Journal.revertAll_cons, Journal.revertAll_nil, hlast]
    exact h.acts

theorem Recorded.walkRecords (h : Recorded s t log)
    (mem : Memory) (addr : Word) (stop : Nat) (hit : Hit) (fuel : Nat) (first : Option Nat) :
    ∃ acts log', CallStack.walkRecords mem addr stop hit fuel first t.acts (some log) =
        (acts, some log') ∧ Recorded s { t with acts := acts } log' := by
  induction fuel generalizing first t log with
  | zero => exact ⟨t.acts, log, by simp [CallStack.walkRecords], h⟩
  | succ fuel ih =>
      cases first with
      | none => exact ⟨t.acts, log, by simp [CallStack.walkRecords], h⟩
      | some i =>
          rw [CallStack.walkRecords]
          cases hi : t.acts[i]? with
          | none => exact ⟨t.acts, log, rfl, h⟩
          | some a =>
              simp only
              split
              · exact ⟨t.acts, log, rfl, h⟩
              · by_cases hsame : hitAt mem addr stop hit a = (a.fpHit, a.lrHit)
                · rw [if_neg (not_not.mpr hsame)]
                  exact ih h _
                · rw [if_pos hsame]
                  exact ih (h.hit hi (hitAt mem addr stop hit a)) _

theorem Recorded.watchFold (h : Recorded s t log)
    (step : Nat) (mem : Memory) (writer : Word × Word) (nearest : Nat)
    (writes : List (Word × Nat)) :
    ∃ acts log', writes.foldl (watchWrite step mem writer nearest) (t.acts, some log) =
        (acts, some log') ∧ Recorded s { t with acts := acts } log' := by
  induction writes generalizing t log with
  | nil => exact ⟨t.acts, log, rfl, h⟩
  | cons write writes ih =>
      obtain ⟨acts, log', hvalue, hrec⟩ := h.walkRecords mem write.1
        (saturatingAdd write.1.toNat write.2)
        ⟨step, writer.1, (write.1 - writer.2).toInt⟩ t.acts.length
        (lowestReaching t.acts nearest write.1)
      rw [List.foldl_cons, watchWrite, hvalue]
      exact ih hrec

theorem Recorded.watchWrites (h : Recorded s t log)
    (writes : List (Word × Nat)) (step : Nat) (mem : Memory) (writer : Word × Word) :
    ∃ t' log', t.watchWrites writes step mem writer (some log) = (t', some log') ∧
      Recorded s t' log' := by
  have hsame : ∃ t' log', (t, some log) = (t', some log') ∧ Recorded s t' log' :=
    ⟨t, log, rfl, h⟩
  unfold CallStack.watchWrites
  split
  · exact hsame
  · simp only
    split
    · exact hsame
    · split
      · exact hsame
      · next top _ _ _ =>
          obtain ⟨acts, log', hvalue, hrec⟩ :=
            h.watchFold step mem writer (t.nearestRecord top - 1) writes
          exact ⟨_, log', by rw [hvalue], hrec⟩

end CallStack

end Playground
