/-
Stepping the allocator back.  Undoing an allocation removes its block from the
live table, which is right only if no block was live there before: so the
tables have to tile the window, live and free blocks disjoint.
-/
import Playground.Machine.Heap

namespace Playground

/-- Blocks `(address, size)` that share no byte. -/
def Apart (x y : Nat × Nat) : Prop := x.1 + x.2 ≤ y.1 ∨ y.1 + y.2 ≤ x.1

/-- The allocator's representation invariant: every block is non-empty and below
the frontier, the free list is ordered, and no two blocks share a byte. -/
structure HeapTables.WellFormed (t : HeapTables) : Prop where
  free_bound : ∀ b ∈ t.free, 0 < b.2 ∧ b.1 + b.2 ≤ t.next
  live_bound : ∀ a s, t.live.lookup a = some s → 0 < s ∧ a + s ≤ t.next
  free_ordered : t.free.Pairwise fun x y => x.1 + x.2 ≤ y.1
  live_free : ∀ a s, t.live.lookup a = some s → ∀ b ∈ t.free, Apart (a, s) b
  live_live : ∀ a s a' s', t.live.lookup a = some s → t.live.lookup a' = some s' → a ≠ a' →
    Apart (a, s) (a', s')
  next_le : t.next ≤ heapLimit

namespace HeapState

/-- What one call may do to the heap: append edits to the log (only while
recording) that lead its tables back to what they were. -/
structure Logs (h h' : HeapState) (edits : List HeapEdit) : Prop where
  recording : h'.recording = h.recording
  undo : h'.undo = if h.recording then h.undo ++ edits else h.undo
  tables : Journal.Undoes HeapTables.revert h.toHeapTables edits h'.toHeapTables

theorem Logs.refl (h : HeapState) : Logs h h [] := by
  refine ⟨rfl, ?_, rfl⟩
  simp

theorem Logs.trans {h h' h'' : HeapState} {edits edits' : List HeapEdit}
    (first : Logs h h' edits) (second : Logs h' h'' edits') : Logs h h'' (edits ++ edits') := by
  refine ⟨second.recording.trans first.recording, ?_, first.tables.trans second.tables⟩
  rw [second.undo, first.recording, first.undo]
  by_cases hrec : h.recording <;> simp [hrec]

@[simp] theorem log_recording (h : HeapState) (edit : HeapEdit) :
    (h.log edit).recording = h.recording := by
  unfold log
  split <;> rfl

@[simp] theorem log_toHeapTables (h : HeapState) (edit : HeapEdit) :
    (h.log edit).toHeapTables = h.toHeapTables := by
  unfold log
  split <;> rfl

theorem log_undo (h : HeapState) (edit : HeapEdit) :
    (h.log edit).undo = if h.recording then h.undo ++ [edit] else h.undo := by
  unfold log
  split <;> rfl

/-- A change made after its edit is logged. -/
theorem logs_of_revert {h h' : HeapState} {edit : HeapEdit}
    (hrec : h'.recording = h.recording)
    (hundo : h'.undo = if h.recording then h.undo ++ [edit] else h.undo)
    (htables : HeapTables.revert edit h'.toHeapTables = h.toHeapTables) : Logs h h' [edit] :=
  ⟨hrec, hundo, htables⟩

theorem logs_insertLive {h : HeapState} {addr : Nat} (size : Nat) (hnew : addr ∉ h.live) :
    Logs h (h.insertLive addr size) [.allocated addr] := by
  refine logs_of_revert (by simp [insertLive]) (by simp [insertLive, log_undo]) ?_
  have herase : (h.live.insert addr size).erase addr = h.live := by
    apply Finmap.ext_lookup
    intro a
    by_cases ha : a = addr
    · subst ha
      rw [Finmap.lookup_erase, Finmap.lookup_eq_none.mpr hnew]
    · rw [Finmap.lookup_erase_ne ha, Finmap.lookup_insert_of_ne _ ha]
  simp [insertLive, HeapTables.revert, herase]

/-- What taking bytes out of a free entry logs. -/
def takeEdit (i addr block size : Nat) : HeapEdit :=
  if block = size then .freeRemoved i (addr, block) else .freeSet i (addr, block)

theorem logs_takeFree {h : HeapState} {i addr block : Nat} (size : Nat)
    (hi : h.free[i]? = some (addr, block)) :
    Logs h (h.takeFree i addr block size) [takeEdit i addr block size] := by
  obtain ⟨hlt, hget⟩ := List.getElem?_eq_some_iff.mp hi
  by_cases hsize : block = size
  · rw [takeEdit, if_pos hsize]
    refine logs_of_revert ?_ ?_ ?_
    · simp [takeFree, hsize]
    · simp [takeFree, hsize, log_undo]
    · have hback : (h.free.eraseIdx i).insertIdx i (addr, block) = h.free := by
        rw [← hget]
        exact List.insertIdx_eraseIdx_getElem hlt
      simp only [takeFree, hsize, ↓reduceIte, log_toHeapTables, HeapTables.revert]
      rw [← hsize, hback]
  · rw [takeEdit, if_neg hsize]
    refine logs_of_revert ?_ ?_ ?_
    · simp [takeFree, hsize]
    · simp [takeFree, hsize, log_undo]
    · simp [takeFree, hsize, HeapTables.revert, ← hget]

theorem logs_bump (h : HeapState) (size : Nat) : Logs h (h.bump size) [.next h.next] := by
  refine logs_of_revert ?_ ?_ ?_
  · simp [bump]
  · simp [bump, log_undo]
  · simp [bump, HeapTables.revert]

theorem logs_dropLive {h : HeapState} {addr size : Nat} (hlive : h.live.lookup addr = some size) :
    Logs h (h.dropLive addr size) [.released addr size] := by
  refine logs_of_revert (by simp [dropLive]) (by simp [dropLive, log_undo]) ?_
  have hback : (h.live.erase addr).insert addr size = h.live := by
    apply Finmap.ext_lookup
    intro a
    by_cases ha : a = addr
    · subst ha
      rw [Finmap.lookup_insert, hlive]
    · rw [Finmap.lookup_insert_of_ne _ ha, Finmap.lookup_erase_ne ha]
  simp [dropLive, HeapTables.revert, hback]

theorem logs_insertFree (h : HeapState) (index addr size : Nat) :
    Logs h (h.insertFree index addr size) [.freeInserted index] := by
  refine logs_of_revert (by simp [insertFree]) (by simp [insertFree, log_undo]) ?_
  simp [insertFree, HeapTables.revert, List.eraseIdx_insertIdx_self]

/-- What a merge of the entry at `i` with the next one logs. -/
def coalesceEdits (h : HeapState) (i : Nat) : List HeapEdit :=
  match h.free[i]?, h.free[i + 1]? with
  | some (addr, size), some (addr', size') =>
      if addr + size = addr' then
        [.freeSet i (addr, size), .freeRemoved (i + 1) (addr', size')]
      else []
  | _, _ => []

/-- A merge joins two entries that touch, or does nothing. -/
theorem coalesce_cases (h : HeapState) (i : Nat) :
    (h.coalesce i = h ∧ h.coalesceEdits i = []) ∨
    ∃ addr size size', h.free[i]? = some (addr, size) ∧
      h.free[i + 1]? = some (addr + size, size') ∧
      h.coalesce i = ({ h.log (.freeSet i (addr, size)) with
        free := (h.free.set i (addr, size + size')).eraseIdx (i + 1) }).log
          (.freeRemoved (i + 1) (addr + size, size')) ∧
      h.coalesceEdits i = [.freeSet i (addr, size), .freeRemoved (i + 1) (addr + size, size')] := by
  unfold coalesce coalesceEdits
  cases hi : h.free[i]? with
  | none => exact .inl ⟨rfl, rfl⟩
  | some entry =>
      obtain ⟨addr, size⟩ := entry
      cases hi' : h.free[i + 1]? with
      | none => exact .inl ⟨rfl, rfl⟩
      | some entry' =>
          obtain ⟨addr', size'⟩ := entry'
          by_cases htouch : addr + size = addr'
          · subst htouch
            exact .inr ⟨addr, size, size', rfl, rfl, by simp, by simp⟩
          · exact .inl ⟨by simp [htouch], by simp [htouch]⟩

theorem logs_coalesce (h : HeapState) (i : Nat) : Logs h (h.coalesce i) (h.coalesceEdits i) := by
  rcases h.coalesce_cases i with ⟨hsame, hnone⟩ |
    ⟨addr, size, size', hi, hi', hmerged, hedits⟩
  · rw [hsame, hnone]
    exact Logs.refl h
  · obtain ⟨hlt, hget⟩ := List.getElem?_eq_some_iff.mp hi
    obtain ⟨hlt', hget'⟩ := List.getElem?_eq_some_iff.mp hi'
    rw [hmerged, hedits]
    refine ⟨by simp, ?_, ?_⟩
    · by_cases hrec : h.recording <;> simp [log_undo, hrec]
    · have hlen : i + 1 < (h.free.set i (addr, size + size')).length := by simpa using hlt'
      have hgone : (h.free.set i (addr, size + size'))[i + 1] = (addr + size, size') := by
        rw [List.getElem_set_ne (by omega), hget']
      have hback : ((h.free.set i (addr, size + size')).eraseIdx (i + 1)).insertIdx (i + 1)
          (addr + size, size') = h.free.set i (addr, size + size') := by
        rw [← hgone]
        exact List.insertIdx_eraseIdx_getElem hlen
      simp [Journal.Undoes, HeapTables.revert, hback, ← hget]

end HeapState

theorem exists_split_of_getElem? {α : Type*} {l : List α} {i : Nat} {x : α}
    (h : l[i]? = some x) : ∃ before after, l = before ++ x :: after ∧ before.length = i := by
  obtain ⟨hlt, hget⟩ := List.getElem?_eq_some_iff.mp h
  refine ⟨l.take i, l.drop (i + 1), ?_, ?_⟩
  · rw [← hget, ← List.drop_eq_getElem_cons hlt, List.take_append_drop]
  · rw [List.length_take]
    omega

theorem insertIdx_length_append {α : Type*} (before after : List α) (x : α) :
    (before ++ after).insertIdx before.length x = before ++ x :: after := by
  induction before with
  | nil => simp
  | cons head before ih => simp [ih]

namespace HeapTables.WellFormed

variable {t : HeapTables}

/-- Every block that is not live at `addr` starts elsewhere when `addr` is the
start of a free block. -/
theorem free_not_live (ht : t.WellFormed) {b : Nat × Nat} (hb : b ∈ t.free) : b.1 ∉ t.live := by
  intro hmem
  obtain ⟨s, hs⟩ := Option.isSome_iff_exists.mp (Finmap.lookup_isSome.mpr hmem)
  have hpos := (ht.live_bound _ _ hs).1
  have hbpos := (ht.free_bound _ hb).1
  rcases ht.live_free _ _ hs b hb with h | h <;> simp only at h <;> omega

theorem next_not_live (ht : t.WellFormed) : t.next ∉ t.live := by
  intro hmem
  obtain ⟨s, hs⟩ := Option.isSome_iff_exists.mp (Finmap.lookup_isSome.mpr hmem)
  have hbound := ht.live_bound _ _ hs
  omega

/-- The front of a free block becomes live; what is left stays free. -/
theorem takeFree (ht : t.WellFormed) {before after : List (Nat × Nat)} {addr block size : Nat}
    (hfree : t.free = before ++ (addr, block) :: after) (hpos : 0 < size) (hsize : size ≤ block)
    (rest : List (Nat × Nat)) (hrest : rest.Pairwise fun x y => x.1 + x.2 ≤ y.1)
    (hrest' : ∀ b ∈ rest, b = (addr + size, block - size) ∧ size < block) :
    WellFormed { t with
      free := before ++ (rest ++ after), live := t.live.insert addr size } := by
  have hordered := ht.free_ordered
  rw [hfree, List.pairwise_append, List.pairwise_cons] at hordered
  obtain ⟨hbefore, ⟨hhead, hafter⟩, hcross⟩ := hordered
  have hbound := ht.free_bound
  rw [hfree] at hbound
  have hblock := hbound (addr, block) (by simp)
  simp only at hblock
  have hmem : ∀ b ∈ before ++ (rest ++ after), b ∈ rest ∨ (b ∈ t.free ∧
      (b.1 + b.2 ≤ addr ∨ addr + block ≤ b.1)) := by
    intro b hb
    rw [List.mem_append, List.mem_append] at hb
    rcases hb with hb | hb | hb
    · exact .inr ⟨by rw [hfree]; simp [hb], .inl (hcross b hb (addr, block) (by simp))⟩
    · exact .inl hb
    · exact .inr ⟨by rw [hfree]; simp [hb], .inr (hhead b hb)⟩
  have hlookup : ∀ a s, (t.live.insert addr size).lookup a = some s →
      (a = addr ∧ s = size) ∨ (a ≠ addr ∧ t.live.lookup a = some s) := by
    intro a s has
    by_cases ha : a = addr
    · subst ha
      rw [Finmap.lookup_insert, Option.some.injEq] at has
      exact .inl ⟨rfl, has.symm⟩
    · rw [Finmap.lookup_insert_of_ne _ ha] at has
      exact .inr ⟨ha, has⟩
  have hold : ∀ a s, t.live.lookup a = some s → Apart (a, s) (addr, block) :=
    fun a s has => ht.live_free a s has (addr, block) (by rw [hfree]; simp)
  refine ⟨?_, ?_, ?_, ?_, ?_, ht.next_le⟩
  · intro b hb
    rcases hmem b hb with hb | ⟨hb, -⟩
    · obtain ⟨rfl, hlt⟩ := hrest' b hb
      simp only
      omega
    · exact ht.free_bound b hb
  · intro a s has
    rcases hlookup a s has with ⟨rfl, rfl⟩ | ⟨-, has⟩
    · exact ⟨hpos, by simp only; omega⟩
    · exact ht.live_bound a s has
  · rw [List.pairwise_append, List.pairwise_append]
    refine ⟨hbefore, ⟨hrest, hafter, ?_⟩, ?_⟩
    · intro x hx y hy
      obtain ⟨rfl, hlt⟩ := hrest' x hx
      have hafter := hhead y hy
      simp only at hafter ⊢
      omega
    · intro x hx y hy
      rw [List.mem_append] at hy
      rcases hy with hy | hy
      · obtain ⟨rfl, -⟩ := hrest' y hy
        have hx := hcross x hx (addr, block) (by simp)
        simp only at hx ⊢
        omega
      · exact hcross x hx y (List.mem_cons_of_mem _ hy)
  · intro a s has b hb
    rcases hlookup a s has with ⟨rfl, rfl⟩ | ⟨-, has⟩
    · rcases hmem b hb with hb | ⟨-, h⟩
      · obtain ⟨rfl, -⟩ := hrest' b hb
        exact .inl le_rfl
      · rcases h with h | h
        · exact .inr h
        · exact .inl (by simp only; omega)
    · rcases hmem b hb with hb | ⟨hb, -⟩
      · obtain ⟨rfl, hlt⟩ := hrest' b hb
        rcases hold a s has with h | h
        · exact .inl (by simp only at h ⊢; omega)
        · exact .inr (by simp only at h ⊢; omega)
      · exact ht.live_free a s has b hb
  · intro a s a' s' has has' hne
    rcases hlookup a s has with ⟨rfl, rfl⟩ | ⟨-, hs⟩ <;>
      rcases hlookup a' s' has' with ⟨rfl, rfl⟩ | ⟨-, hs'⟩
    · exact absurd rfl hne
    · rcases hold a' s' hs' with h | h
      · exact .inr h
      · exact .inl (by simp only at h ⊢; omega)
    · rcases hold a s hs with h | h
      · exact .inl h
      · exact .inr (by simp only at h ⊢; omega)
    · exact ht.live_live a s a' s' hs hs' hne

/-- A block at the frontier becomes live. -/
theorem bump (ht : t.WellFormed) (size : Nat) (hpos : 0 < size)
    (hroom : t.next + size ≤ heapLimit) :
    WellFormed { t with next := t.next + size, live := t.live.insert t.next size } := by
  have hlookup : ∀ a s, (t.live.insert t.next size).lookup a = some s →
      (a = t.next ∧ s = size) ∨ t.live.lookup a = some s := by
    intro a s has
    by_cases ha : a = t.next
    · subst ha
      rw [Finmap.lookup_insert, Option.some.injEq] at has
      exact .inl ⟨rfl, has.symm⟩
    · rw [Finmap.lookup_insert_of_ne _ ha] at has
      exact .inr has
  refine ⟨?_, ?_, ht.free_ordered, ?_, ?_, hroom⟩
  · intro b hb
    have hbound := ht.free_bound b hb
    simp only
    omega
  · intro a s has
    rcases hlookup a s has with ⟨rfl, rfl⟩ | has
    · exact ⟨hpos, le_rfl⟩
    · have hbound := ht.live_bound a s has
      simp only
      omega
  · intro a s has b hb
    rcases hlookup a s has with ⟨rfl, rfl⟩ | has
    · exact .inr (ht.free_bound b hb).2
    · exact ht.live_free a s has b hb
  · intro a s a' s' has has' hne
    rcases hlookup a s has with ⟨rfl, rfl⟩ | hs <;>
      rcases hlookup a' s' has' with ⟨rfl, rfl⟩ | hs'
    · exact absurd rfl hne
    · exact .inr (ht.live_bound a' s' hs').2
    · exact .inl (ht.live_bound a s hs).2
    · exact ht.live_live a s a' s' hs hs' hne

/-- A live block moves to its place in the ordered free list. -/
theorem release (ht : t.WellFormed) {addr size : Nat} (hlive : t.live.lookup addr = some size) :
    WellFormed { t with
      live := t.live.erase addr
      free := t.free.insertIdx
        (t.free.takeWhile fun entry => decide (entry.1 < addr)).length (addr, size) } := by
  have hbound := ht.live_bound addr size hlive
  have happart := ht.live_free addr size hlive
  have hfree : t.free.insertIdx (t.free.takeWhile fun entry => decide (entry.1 < addr)).length
      (addr, size) = (t.free.takeWhile fun entry => decide (entry.1 < addr)) ++
        (addr, size) :: t.free.dropWhile fun entry => decide (entry.1 < addr) := by
    rw [← insertIdx_length_append, List.takeWhile_append_dropWhile]
  have hlow : ∀ b ∈ t.free.takeWhile fun entry => decide (entry.1 < addr),
      b.1 + b.2 ≤ addr := by
    intro b hb
    have hlt : b.1 < addr := by simpa using List.mem_takeWhile_imp hb
    rcases happart b ((List.takeWhile_sublist _).mem hb) with h | h
    · simp only at h
      omega
    · exact h
  have hordered := ht.free_ordered
  rw [← List.takeWhile_append_dropWhile (p := fun entry : Nat × Nat => decide (entry.1 < addr))
    (l := t.free), List.pairwise_append] at hordered
  obtain ⟨hbefore, hafter, hcross⟩ := hordered
  have hhigh : ∀ b ∈ t.free.dropWhile fun entry => decide (entry.1 < addr),
      addr + size ≤ b.1 := by
    cases hdrop : t.free.dropWhile fun entry => decide (entry.1 < addr) with
    | nil => simp
    | cons head tail =>
        have hhead : ¬ head.1 < addr := by
          have h := List.head_dropWhile_not (fun entry : Nat × Nat => decide (entry.1 < addr))
            (l := t.free) (by rw [hdrop]; simp)
          simpa [hdrop] using h
        have hmem : ∀ b ∈ head :: tail, b ∈ t.free := fun b hb =>
          (List.dropWhile_sublist _).mem (hdrop ▸ hb)
        have hheadEnd : addr + size ≤ head.1 := by
          have hpos := (ht.free_bound head (hmem head (by simp))).1
          rcases happart head (hmem head (by simp)) with h | h <;> simp only at h <;> omega
        intro b hb
        rcases List.mem_cons.mp hb with rfl | hb
        · exact hheadEnd
        · rw [hdrop, List.pairwise_cons] at hafter
          have hle := hafter.1 b hb
          omega
  have hmem : ∀ b, b ∈ (t.free.takeWhile fun entry => decide (entry.1 < addr)) ++
      (addr, size) :: (t.free.dropWhile fun entry => decide (entry.1 < addr)) →
      b = (addr, size) ∨ b ∈ t.free := by
    intro b hb
    rw [List.mem_append, List.mem_cons] at hb
    rcases hb with hb | hb | hb
    · exact .inr ((List.takeWhile_sublist _).mem hb)
    · exact .inl hb
    · exact .inr ((List.dropWhile_sublist _).mem hb)
  have hlookup : ∀ a s, (t.live.erase addr).lookup a = some s →
      a ≠ addr ∧ t.live.lookup a = some s := by
    intro a s has
    by_cases ha : a = addr
    · subst ha
      rw [Finmap.lookup_erase] at has
      exact absurd has (by simp)
    · rw [Finmap.lookup_erase_ne ha] at has
      exact ⟨ha, has⟩
  rw [hfree]
  refine ⟨?_, ?_, ?_, ?_, ?_, ht.next_le⟩
  · intro b hb
    rcases hmem b hb with rfl | hb
    · exact hbound
    · exact ht.free_bound b hb
  · intro a s has
    exact ht.live_bound a s (hlookup a s has).2
  · rw [List.pairwise_append, List.pairwise_cons]
    refine ⟨hbefore, ⟨hhigh, hafter⟩, ?_⟩
    intro x hx y hy
    rcases List.mem_cons.mp hy with rfl | hy
    · exact hlow x hx
    · exact hcross x hx y hy
  · intro a s has b hb
    obtain ⟨hne, has⟩ := hlookup a s has
    rcases hmem b hb with rfl | hb
    · exact ht.live_live a s addr size has hlive hne
    · exact ht.live_free a s has b hb
  · intro a s a' s' has has' hne
    exact ht.live_live a s a' s' (hlookup a s has).2 (hlookup a' s' has').2 hne

/-- Two touching free blocks become one. -/
theorem coalesce (ht : t.WellFormed) {before after : List (Nat × Nat)}
    {addr size addr' size' : Nat} (htouch : addr + size = addr')
    (hfree : t.free = before ++ (addr, size) :: (addr', size') :: after) :
    WellFormed { t with free := before ++ (addr, size + size') :: after } := by
  have hordered := ht.free_ordered
  rw [hfree, List.pairwise_append, List.pairwise_cons, List.pairwise_cons] at hordered
  obtain ⟨hbefore, ⟨hhead, hnext, hafter⟩, hcross⟩ := hordered
  have hbound := ht.free_bound (addr, size) (by rw [hfree]; simp)
  have hbound' := ht.free_bound (addr', size') (by rw [hfree]; simp)
  simp only at hbound hbound'
  have hmem : ∀ b ∈ before ++ (addr, size + size') :: after,
      b = (addr, size + size') ∨ b ∈ t.free := by
    intro b hb
    rw [List.mem_append, List.mem_cons] at hb
    rcases hb with hb | hb | hb
    · exact .inr (by rw [hfree]; simp [hb])
    · exact .inl hb
    · exact .inr (by rw [hfree]; simp [hb])
  refine ⟨?_, ht.live_bound, ?_, ?_, ht.live_live, ht.next_le⟩
  · intro b hb
    rcases hmem b hb with rfl | hb
    · simp only
      omega
    · exact ht.free_bound b hb
  · rw [List.pairwise_append, List.pairwise_cons]
    refine ⟨hbefore, ⟨?_, hafter⟩, ?_⟩
    · intro b hb
      have hle := hnext b hb
      simp only at hle ⊢
      omega
    · intro x hx y hy
      rcases List.mem_cons.mp hy with rfl | hy
      · exact hcross x hx (addr, size) (by simp)
      · exact hcross x hx y (by simp [hy])
  · intro a s has b hb
    rcases hmem b hb with rfl | hb
    · have hleft := ht.live_free a s has (addr, size) (by rw [hfree]; simp)
      have hright := ht.live_free a s has (addr', size') (by rw [hfree]; simp)
      have hpos := (ht.live_bound a s has).1
      unfold Apart at *
      simp only at *
      omega
    · exact ht.live_free a s has b hb

end HeapTables.WellFormed

namespace HeapState

/-- What a call on the allocator preserves: the recording flag, the invariant,
and a log that leads back. -/
structure Keeps (h h' : HeapState) : Prop where
  logs : ∃ edits, Logs h h' edits
  wellFormed : h'.WellFormed

theorem roundUp_pos (size : Nat) :
    0 < (max size 1 + (heapAlign - 1)) / heapAlign * heapAlign := by
  unfold heapAlign
  omega

theorem keeps_takeFree {h : HeapState} (hw : h.WellFormed) {i addr block size : Nat}
    (hi : h.free[i]? = some (addr, block)) (hpos : 0 < size) (hsize : size ≤ block) :
    Keeps h ((h.takeFree i addr block size).insertLive addr size) := by
  obtain ⟨before, after, hfree, hlen⟩ := exists_split_of_getElem? hi
  have htake := logs_takeFree size hi
  have hnew : addr ∉ h.live :=
    hw.free_not_live (b := (addr, block)) (by rw [hfree]; simp)
  have hlive : (h.takeFree i addr block size).live = h.live := by
    unfold takeFree
    split <;> simp
  refine ⟨⟨_, htake.trans (logs_insertLive size (by rw [hlive]; exact hnew))⟩, ?_⟩
  by_cases hwhole : block = size
  · have hwf := hw.takeFree hfree hpos hsize [] List.Pairwise.nil (by simp)
    have herase : h.free.eraseIdx i = before ++ after := by
      rw [hfree, ← hlen, List.eraseIdx_append_of_length_le le_rfl]
      simp
    simpa [insertLive, takeFree, hwhole, herase] using hwf
  · have hwf := hw.takeFree hfree hpos hsize [(addr + size, block - size)]
      (by simp) (by simpa using by omega)
    have hset : h.free.set i (addr + size, block - size) =
        before ++ (addr + size, block - size) :: after := by
      rw [hfree, ← hlen, List.set_append_right _ _ le_rfl]
      simp
    simpa [insertLive, takeFree, hwhole, hset] using hwf

theorem keeps_alloc {h : HeapState} (hw : h.WellFormed) (size : Nat) :
    Keeps h (h.alloc size).1 := by
  have hpos := roundUp_pos size
  have hrefl : Keeps h h := ⟨⟨[], Logs.refl h⟩, hw⟩
  unfold alloc
  split
  · exact hrefl
  · generalize (max size 1 + (heapAlign - 1)) / heapAlign * heapAlign = rounded at hpos ⊢
    simp only
    split
    · next i hfind =>
        obtain ⟨hlt, hfits, -⟩ := List.findIdx?_eq_some_iff_getElem.mp hfind
        have hget : h.free.getD i (0, 0) = h.free[i] := by simp [hlt]
        rw [hget]
        exact keeps_takeFree hw (by simp [hlt]) hpos (by simpa using hfits)
    · split
      · exact hrefl
      · next hroom =>
          refine ⟨⟨_, (logs_bump h rounded).trans (logs_insertLive rounded ?_)⟩, ?_⟩
          · have hlive : (h.bump rounded).live = h.live := by simp [bump]
            rw [hlive]
            exact hw.next_not_live
          · have hwf := hw.bump rounded hpos (by omega)
            simpa [insertLive, bump] using hwf

theorem keeps_coalesce {h : HeapState} (hw : h.WellFormed) (i : Nat) : Keeps h (h.coalesce i) := by
  refine ⟨⟨_, logs_coalesce h i⟩, ?_⟩
  rcases h.coalesce_cases i with ⟨hsame, -⟩ | ⟨addr, size, size', hi, hi', hmerged, -⟩
  · rwa [hsame]
  · obtain ⟨before, rest, hfree, hlen⟩ := exists_split_of_getElem? hi
    obtain ⟨after, rfl⟩ : ∃ after, rest = (addr + size, size') :: after := by
      rw [hfree, List.getElem?_append_right (by omega)] at hi'
      have hone : i + 1 - before.length = 1 := by omega
      rw [hone] at hi'
      cases rest with
      | nil => simp at hi'
      | cons head after => exact ⟨after, by simpa using hi'⟩
    have hfront : (h.free.set i (addr, size + size')).eraseIdx (i + 1) =
        before ++ (addr, size + size') :: after := by
      rw [hfree, ← hlen]
      simp [List.eraseIdx_append_of_length_le]
    simpa [hmerged, hfront] using hw.coalesce rfl hfree

theorem keeps_trans {h h' h'' : HeapState} (first : Keeps h h') (second : Keeps h' h'') :
    Keeps h h'' := by
  obtain ⟨edits, hlogs⟩ := first.logs
  obtain ⟨edits', hlogs'⟩ := second.logs
  exact ⟨⟨_, hlogs.trans hlogs'⟩, second.wellFormed⟩

theorem keeps_release {h : HeapState} (hw : h.WellFormed) (addr : Nat) :
    Keeps h (h.release addr).1 := by
  unfold release
  split
  · exact ⟨⟨[], Logs.refl h⟩, hw⟩
  · next size hlive =>
      simp only
      have hdrop := logs_dropLive hlive
      have hinsert := logs_insertFree (h.dropLive addr size)
        ((h.dropLive addr size).freePosition addr) addr size
      have hput : Keeps h ((h.dropLive addr size).insertFree
          ((h.dropLive addr size).freePosition addr) addr size) := by
        refine ⟨⟨_, hdrop.trans hinsert⟩, ?_⟩
        simpa [dropLive, insertFree, freePosition] using hw.release hlive
      have hright := keeps_trans hput (keeps_coalesce hput.wellFormed
        ((h.dropLive addr size).freePosition addr))
      split
      · exact keeps_trans hright (keeps_coalesce hright.wellFormed _)
      · exact hright

theorem keeps_run {h : HeapState} (hw : h.WellFormed) (call : HeapCall) :
    Keeps h (call.run h) := by
  cases call with
  | alloc size => exact keeps_alloc hw size
  | release addr => exact keeps_release hw addr

theorem wellFormed_new : HeapState.new.WellFormed := by
  refine ⟨?_, ?_, List.Pairwise.nil, ?_, ?_, Nat.le_add_right _ _⟩ <;> simp [new]

/-- `h` is partway through a step that began with the tables `t`. -/
structure Recorded (t : HeapTables) (h : HeapState) : Prop where
  recording : h.recording = true
  tables : Journal.Undoes HeapTables.revert t h.undo h.toHeapTables

theorem recorded_recordUndo (h : HeapState) (slot : List HeapEdit) :
    Recorded h.toHeapTables (h.recordUndo slot).1 :=
  ⟨rfl, rfl⟩

theorem Recorded.keeps {t : HeapTables} {h h' : HeapState} (hr : Recorded t h)
    (hkeeps : Keeps h h') : Recorded t h' := by
  obtain ⟨edits, hlogs⟩ := hkeeps.logs
  refine ⟨hlogs.recording.trans hr.recording, ?_⟩
  rw [hlogs.undo, if_pos hr.recording]
  exact hr.tables.trans hlogs.tables

/-- Undoing a step's log restores the tables the step began with. -/
theorem undoStep_of_recorded {t : HeapTables} {h other : HeapState} (hr : Recorded t h)
    (hother : other.toHeapTables = h.toHeapTables) :
    (other.undoStep h.undo).toHeapTables = t := by
  have htables : Journal.revertAll HeapTables.revert h.undo h.toHeapTables = t := hr.tables
  unfold undoStep
  rw [hother]
  exact htables

end HeapState

end Playground
