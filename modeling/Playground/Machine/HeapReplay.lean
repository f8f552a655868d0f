/-
The allocator's log, replayed.  The source reaches into the free list by the index an edit
names, so a log has to refer to the list as it stood when the edit was made: a replay that
does not would stop the emulator.
-/
import Playground.Machine.HeapUndo

namespace Playground

namespace HeapTables

/-- The edit's index is one the reversal can use: an entry to put back or take out, or a
place to insert at. -/
def InRange (t : HeapTables) : HeapEdit → Prop
  | .freeSet i _ | .freeInserted i => i < t.free.length
  | .freeRemoved i _ => i ≤ t.free.length
  | .next _ | .allocated _ | .released _ _ => True

instance (t : HeapTables) (edit : HeapEdit) : Decidable (t.InRange edit) := by
  cases edit <;> unfold InRange <;> infer_instance

/-- Reverse one change, `none` where the source would index outside the free list. -/
def revert? (edit : HeapEdit) (t : HeapTables) : Option HeapTables :=
  if t.InRange edit then some (revert edit t) else none

/-- Reverse a log, newest edit first. -/
def replay (log : List HeapEdit) (t : HeapTables) : Option HeapTables :=
  log.foldr (fun edit t => t.bind (revert? edit)) (some t)

theorem replay_append (older newer : List HeapEdit) (t : HeapTables) :
    replay (older ++ newer) t = (replay newer t).bind (replay older) := by
  induction older with
  | nil =>
      have hnil : (replay [] : HeapTables → Option HeapTables) = some := rfl
      rw [hnil, List.nil_append, Option.bind_fun_some]
  | cons edit older ih =>
      have hcons : (replay (edit :: older) : HeapTables → Option HeapTables) =
          fun t => (replay older t).bind (revert? edit) := rfl
      have hboth : replay (edit :: older ++ newer) t =
          (replay (older ++ newer) t).bind (revert? edit) := rfl
      rw [hboth, ih, hcons, Option.bind_assoc]

end HeapTables

namespace HeapState

open HeapTables (InRange replay revert?)

/-- The call logged edits that replay from its tables to those it began with. -/
def Replays (h h' : HeapState) : Prop :=
  ∃ edits, Logs h h' edits ∧ replay edits h'.toHeapTables = some h.toHeapTables

theorem Replays.refl (h : HeapState) : Replays h h := ⟨[], Logs.refl h, rfl⟩

theorem Replays.trans {h h' h'' : HeapState} (first : Replays h h') (second : Replays h' h'') :
    Replays h h'' := by
  obtain ⟨edits, hlogs, hreplay⟩ := first
  obtain ⟨edits', hlogs', hreplay'⟩ := second
  refine ⟨edits ++ edits', hlogs.trans hlogs', ?_⟩
  rw [HeapTables.replay_append, hreplay', Option.bind_some, hreplay]

/-- One edit replays when its index is in range after the change. -/
theorem Logs.replays {h h' : HeapState} {edit : HeapEdit} (hlogs : Logs h h' [edit])
    (hrange : h'.InRange edit) : Replays h h' := by
  have hback : HeapTables.revert edit h'.toHeapTables = h.toHeapTables := hlogs.tables
  refine ⟨[edit], hlogs, ?_⟩
  have hone : replay [edit] h'.toHeapTables = revert? edit h'.toHeapTables := rfl
  rw [hone, revert?, if_pos hrange, hback]

theorem replays_insertLive {h : HeapState} {addr : Nat} (size : Nat) (hnew : addr ∉ h.live) :
    Replays h (h.insertLive addr size) :=
  (logs_insertLive size hnew).replays trivial

theorem replays_bump (h : HeapState) (size : Nat) : Replays h (h.bump size) :=
  (logs_bump h size).replays trivial

theorem replays_takeFree {h : HeapState} {i addr block : Nat} (size : Nat)
    (hi : h.free[i]? = some (addr, block)) : Replays h (h.takeFree i addr block size) := by
  obtain ⟨hlt, -⟩ := List.getElem?_eq_some_iff.mp hi
  refine (logs_takeFree size hi).replays ?_
  by_cases hsize : block = size
  · have hlen := List.length_eraseIdx_of_lt hlt
    simp only [takeEdit, takeFree, hsize, if_true, log_toHeapTables, InRange, hlen]
    omega
  · simpa only [takeEdit, takeFree, hsize, if_false, log_toHeapTables, InRange,
      List.length_set] using hlt

theorem replays_dropLive {h : HeapState} {addr size : Nat}
    (hlive : h.live.lookup addr = some size) : Replays h (h.dropLive addr size) :=
  (logs_dropLive hlive).replays trivial

/-- A freed block goes in at an index the list has. -/
theorem replays_insertFree (h : HeapState) (start addr size : Nat) :
    Replays h (h.insertFree (h.freePosition start) addr size) := by
  have hle : h.freePosition start ≤ h.free.length :=
    (List.takeWhile_sublist _).length_le
  refine (logs_insertFree h _ addr size).replays ?_
  simp only [insertFree, log_toHeapTables, InRange, List.length_insertIdx, hle, if_true]
  omega

/-- A merge takes the right entry out before it logs it and changes the left one after. -/
theorem replays_coalesce (h : HeapState) (i : Nat) : Replays h (h.coalesce i) := by
  refine ⟨_, h.logs_coalesce i, ?_⟩
  have htables : Journal.revertAll HeapTables.revert (h.coalesceEdits i)
      (h.coalesce i).toHeapTables = h.toHeapTables := (h.logs_coalesce i).tables
  rcases h.coalesce_cases i with ⟨hsame, hnone⟩ |
    ⟨addr, size, size', hi, hi', hmerged, hedits⟩
  · rw [hsame, hnone]
    rfl
  · obtain ⟨hlt, -⟩ := List.getElem?_eq_some_iff.mp hi
    obtain ⟨hlt', -⟩ := List.getElem?_eq_some_iff.mp hi'
    have hlen : (h.coalesce i).free.length = h.free.length - 1 := by
      rw [hmerged, log_toHeapTables]
      rw [List.length_eraseIdx_of_lt (by simpa using hlt'), List.length_set]
    have hin : (h.coalesce i).InRange (.freeRemoved (i + 1) (addr + size, size')) := by
      simp only [InRange, hlen]
      omega
    have hin' : (HeapTables.revert (.freeRemoved (i + 1) (addr + size, size'))
        (h.coalesce i).toHeapTables).InRange (.freeSet i (addr, size)) := by
      have hroom : i + 1 ≤ (h.coalesce i).free.length := by omega
      simp only [InRange, HeapTables.revert, List.length_insertIdx, hroom, if_true]
      omega
    rw [hedits] at htables ⊢
    have htwo : replay [.freeSet i (addr, size), .freeRemoved (i + 1) (addr + size, size')]
        (h.coalesce i).toHeapTables =
        (revert? (.freeRemoved (i + 1) (addr + size, size')) (h.coalesce i).toHeapTables).bind
          (revert? (.freeSet i (addr, size))) := rfl
    rw [htwo, revert?, if_pos hin, Option.bind_some, revert?, if_pos hin']
    exact congrArg some htables

theorem replays_alloc {h : HeapState} (hw : h.WellFormed) (size : Nat) :
    Replays h (h.alloc size).1 := by
  unfold alloc
  split
  · exact Replays.refl h
  · generalize (max size 1 + (heapAlign - 1)) / heapAlign * heapAlign = rounded
    simp only
    split
    · next i hfind =>
        obtain ⟨hlt, -⟩ := List.findIdx?_eq_some_iff_getElem.mp hfind
        have hget : h.free.getD i (0, 0) = h.free[i] := by simp [hlt]
        have hi : h.free[i]? = some (h.free[i].1, h.free[i].2) := by simp [hlt]
        have hlive : (h.takeFree i h.free[i].1 h.free[i].2 rounded).live = h.live := by
          unfold takeFree
          split <;> simp
        have hnew := hw.free_not_live (List.getElem_mem hlt)
        rw [hget]
        refine (replays_takeFree rounded hi).trans (replays_insertLive rounded ?_)
        rw [hlive]
        exact hnew
    · split
      · exact Replays.refl h
      · have hlive : (h.bump rounded).live = h.live := by simp [bump]
        refine (replays_bump h rounded).trans (replays_insertLive rounded ?_)
        rw [hlive]
        exact hw.next_not_live

theorem replays_release (h : HeapState) (addr : Nat) : Replays h (h.release addr).1 := by
  unfold release
  split
  · exact Replays.refl h
  · next size hlive =>
      simp only
      have hput := (replays_dropLive hlive).trans
        (replays_insertFree (h.dropLive addr size) addr addr size)
      have hright := hput.trans (replays_coalesce _ ((h.dropLive addr size).freePosition addr))
      split
      · exact hright.trans (replays_coalesce _ _)
      · exact hright

theorem replays_run {h : HeapState} (hw : h.WellFormed) (call : HeapCall) :
    Replays h (call.run h) := by
  cases call with
  | alloc size => exact replays_alloc hw size
  | release addr => exact replays_release h addr

/-- The calls of one step keep the representation and replay back to where it began. -/
theorem replays_calls {h : HeapState} (hw : h.WellFormed) (calls : List HeapCall) :
    Replays h (calls.foldl HeapCall.run h) := by
  induction calls generalizing h with
  | nil => exact Replays.refl h
  | cons call calls ih => exact (replays_run hw call).trans (ih (keeps_run hw call).wellFormed)

/-- Undoing the log of a step gives back the frontier, the free list and the live blocks the
step began with, and no index of the replay is outside the list it is used on. -/
theorem undo_of_calls {h : HeapState} (hw : h.WellFormed) (slot : List HeapEdit)
    (calls : List HeapCall) :
    let started := h.recordUndo slot
    let stopped := (calls.foldl HeapCall.run started.1).finishUndo started.2
    replay stopped.2 stopped.1.toHeapTables = some h.toHeapTables ∧
      (stopped.1.undoStep stopped.2).toHeapTables = h.toHeapTables := by
  intro started stopped
  have hstarted : started.1.WellFormed := hw
  obtain ⟨edits, hlogs, hreplay⟩ := replays_calls hstarted calls
  have hrecording : (calls.foldl HeapCall.run started.1).recording = true := hlogs.recording
  have hundo : (calls.foldl HeapCall.run started.1).undo = edits := by
    rw [hlogs.undo]
    rfl
  have hlog : stopped.2 = edits := by
    simp only [stopped, finishUndo, hrecording, if_true, hundo]
  have htables : stopped.1.toHeapTables =
      (calls.foldl HeapCall.run started.1).toHeapTables := by
    simp only [stopped, finishUndo, hrecording, if_true]
  constructor
  · rw [hlog, htables]
    exact hreplay
  · have hback : Journal.revertAll HeapTables.revert edits
        (calls.foldl HeapCall.run started.1).toHeapTables = h.toHeapTables := hlogs.tables
    rw [undoStep, hlog, htables]
    exact hback

/-- A step that bumps the frontier twice, frees both blocks so that they merge, splits what
is left and frees an address that is no block. -/
theorem undo_of_calls_merging :
    let started := new.recordUndo []
    let stopped := ([.alloc 32, .alloc 48, .release (heapBase + 32), .release heapBase, .alloc 16,
      .release 1].foldl HeapCall.run started.1).finishUndo started.2
    replay stopped.2 stopped.1.toHeapTables = some new.toHeapTables ∧
      (stopped.1.undoStep stopped.2).toHeapTables = new.toHeapTables :=
  undo_of_calls wellFormed_new [] _

end HeapState

end Playground
