/-
The log of changed bytes between two drains.  A write joins the newest range when it touches
it, or when the log is full.  A joined range keeps only a start and a length: the byte at the
top of the address space is past every such range, and a span too long for the length is cut
down, so what a join covers depends on where it ends.
-/
import Playground.Machine.MemoryUndo

namespace Playground

namespace Memory

/-- The dirty log after a write of `[addr, addr + len)`, lengths being machine integers below
`limit`: `2 ^ 64` natively, `2 ^ 32` in the browser. -/
def noteDirtyIn (limit : Nat) (dirty : List (Nat × Nat)) (addr len : Nat) : List (Nat × Nat) :=
  let stop := saturatingAdd addr len
  match dirty.getLast? with
  | some (start, n) =>
      let lastEnd := saturatingAdd start n
      if start ≤ addr ∧ addr ≤ lastEnd then
        dirty.dropLast ++ [(start, (max stop lastEnd - start) % limit)]
      else if maxDirtyRanges ≤ dirty.length then
        dirty.dropLast ++ [(min start addr, (max lastEnd stop - min start addr) % limit)]
      else dirty ++ [(addr, len)]
  | none => dirty ++ [(addr, len)]

/-- Some range of the log holds the address. -/
def Covers (dirty : List (Nat × Nat)) (a : Nat) : Prop :=
  ∃ range ∈ dirty, range.1 ≤ a ∧ a < range.1 + range.2

instance (dirty : List (Nat × Nat)) (a : Nat) : Decidable (Covers dirty a) :=
  inferInstanceAs (Decidable (∃ range ∈ dirty, _))

/-- The write gets a range of its own, or the range it joins ends below the top of the
address space and its length is one the log can hold. -/
def JoinFits (limit : Nat) (dirty : List (Nat × Nat)) (addr len : Nat) : Prop :=
  ∀ start n, dirty.getLast? = some (start, n) →
    (¬ (start ≤ addr ∧ addr ≤ saturatingAdd start n) ∧ dirty.length < maxDirtyRanges) ∨
    (start + n < 2 ^ 64 ∧ addr + len < 2 ^ 64 ∧
      max (start + n) (addr + len) - min start addr < limit)

instance (limit : Nat) (dirty : List (Nat × Nat)) (addr len : Nat) :
    Decidable (JoinFits limit dirty addr len) :=
  match h : dirty.getLast? with
  | none => .isTrue fun start n hlast => absurd (h.symm.trans hlast) (by simp)
  | some (start, n) =>
      decidable_of_iff
        ((¬ (start ≤ addr ∧ addr ≤ saturatingAdd start n) ∧ dirty.length < maxDirtyRanges) ∨
          (start + n < 2 ^ 64 ∧ addr + len < 2 ^ 64 ∧
            max (start + n) (addr + len) - min start addr < limit))
        ⟨fun hfits start' n' hlast => by
          rw [h, Option.some.injEq, Prod.mk.injEq] at hlast
          obtain ⟨rfl, rfl⟩ := hlast
          exact hfits, fun hfits => hfits start n h⟩

theorem covers_append (older newer : List (Nat × Nat)) (a : Nat) :
    Covers (older ++ newer) a ↔ Covers older a ∨ Covers newer a := by
  simp only [Covers, List.mem_append, or_and_right, exists_or]

theorem covers_singleton (start n a : Nat) :
    Covers [(start, n)] a ↔ start ≤ a ∧ a < start + n := by
  simp [Covers]

theorem saturatingAdd_eq {a b : Nat} (h : a + b < 2 ^ 64) : saturatingAdd a b = a + b := by
  unfold saturatingAdd
  omega

theorem saturatingAdd_lt (a b : Nat) : saturatingAdd a b < 2 ^ 64 := by
  unfold saturatingAdd
  omega

/-- Natively every length fits. -/
theorem noteDirtyIn_native (dirty : List (Nat × Nat)) (addr len : Nat) :
    noteDirtyIn (2 ^ 64) dirty addr len = noteDirty dirty addr len := by
  have hmod : ∀ a b c d e : Nat, (max (saturatingAdd a b) (saturatingAdd c d) - e) % 2 ^ 64 =
      max (saturatingAdd a b) (saturatingAdd c d) - e := by
    intro a b c d e
    have hab := saturatingAdd_lt a b
    have hcd := saturatingAdd_lt c d
    exact Nat.mod_eq_of_lt (by omega)
  unfold noteDirtyIn noteDirty
  cases dirty.getLast? with
  | none => rfl
  | some newest =>
      obtain ⟨start, n⟩ := newest
      simp only [hmod]

theorem length_noteDirtyIn {limit : Nat} {dirty : List (Nat × Nat)} (addr len : Nat)
    (h : dirty.length ≤ maxDirtyRanges) :
    (noteDirtyIn limit dirty addr len).length ≤ maxDirtyRanges := by
  unfold noteDirtyIn
  cases hlast : dirty.getLast? with
  | none =>
      have hnil : dirty = [] := List.getLast?_eq_none_iff.mp hlast
      subst hnil
      exact Nat.one_le_of_lt (by decide : 0 < maxDirtyRanges)
  | some newest =>
      obtain ⟨start, n⟩ := newest
      have hpos : 0 < dirty.length := by
        cases dirty with
        | nil => cases hlast
        | cons => exact Nat.succ_pos _
      simp only
      split
      · simp only [List.length_append, List.length_dropLast, List.length_singleton]
        omega
      · split
        · simp only [List.length_append, List.length_dropLast, List.length_singleton]
          omega
        · simp only [List.length_append, List.length_singleton]
          omega

/-- One write that fits keeps every byte of the log and adds its own. -/
theorem covers_noteDirtyIn {limit : Nat} {dirty : List (Nat × Nat)} {addr len : Nat}
    (hfits : JoinFits limit dirty addr len) {a : Nat}
    (ha : Covers dirty a ∨ (addr ≤ a ∧ a < addr + len)) :
    Covers (noteDirtyIn limit dirty addr len) a := by
  have hpushed : Covers (dirty ++ [(addr, len)]) a := by
    rw [covers_append, covers_singleton]
    exact ha
  unfold noteDirtyIn
  cases hlast : dirty.getLast? with
  | none => exact hpushed
  | some newest =>
      obtain ⟨start, n⟩ := newest
      have hsplit : dirty = dirty.dropLast ++ [(start, n)] :=
        (List.dropLast_append_getLast? (start, n) hlast).symm
      have hcases : Covers dirty.dropLast a ∨ (start ≤ a ∧ a < start + n) ∨
          (addr ≤ a ∧ a < addr + len) := by
        rw [hsplit, covers_append, covers_singleton, or_assoc] at ha
        exact ha
      simp only
      rcases hfits start n hlast with ⟨hapart, hroom⟩ | ⟨hend, hstop, hlen⟩
      · rw [if_neg hapart, if_neg (by omega)]
        exact hpushed
      · rw [saturatingAdd_eq hend, saturatingAdd_eq hstop]
        split
        · next htouch =>
            rw [Nat.mod_eq_of_lt (by omega), covers_append, covers_singleton]
            rcases hcases with hold | hnewest | hown
            · exact .inl hold
            · exact .inr (by omega)
            · exact .inr (by omega)
        · split
          · rw [Nat.mod_eq_of_lt (by omega), covers_append, covers_singleton]
            rcases hcases with hold | hnewest | hown
            · exact .inl hold
            · exact .inr (by omega)
            · exact .inr (by omega)
          · exact hpushed

/-- The log of these ranges, from an empty one. -/
def dirtyLog (limit : Nat) (dirty : List (Nat × Nat)) (ranges : List (Word × Nat)) :
    List (Nat × Nat) :=
  ranges.foldl (fun dirty range => noteDirtyIn limit dirty range.1.toNat range.2) dirty

def AllFit (limit : Nat) : List (Nat × Nat) → List (Word × Nat) → Prop
  | _, [] => True
  | dirty, (addr, len) :: ranges =>
      JoinFits limit dirty addr.toNat len ∧
        AllFit limit (noteDirtyIn limit dirty addr.toNat len) ranges

instance decidableAllFit (limit : Nat) : ∀ dirty ranges, Decidable (AllFit limit dirty ranges)
  | _, [] => .isTrue trivial
  | dirty, (addr, len) :: ranges =>
      have := decidableAllFit limit (noteDirtyIn limit dirty addr.toNat len) ranges
      inferInstanceAs (Decidable (JoinFits limit dirty addr.toNat len ∧ _))

theorem length_dirtyLog (limit : Nat) {dirty : List (Nat × Nat)}
    (h : dirty.length ≤ maxDirtyRanges) (ranges : List (Word × Nat)) :
    (dirtyLog limit dirty ranges).length ≤ maxDirtyRanges := by
  induction ranges generalizing dirty with
  | nil => exact h
  | cons range ranges ih => exact ih (length_noteDirtyIn range.1.toNat range.2 h)

theorem covers_dirtyLog {limit : Nat} {dirty : List (Nat × Nat)} {ranges : List (Word × Nat)}
    (hfit : AllFit limit dirty ranges) {a : Nat}
    (ha : Covers dirty a ∨ ∃ range ∈ ranges, range.1.toNat ≤ a ∧ a < range.1.toNat + range.2) :
    Covers (dirtyLog limit dirty ranges) a := by
  induction ranges generalizing dirty with
  | nil =>
      rcases ha with ha | ⟨range, hmem, -⟩
      · exact ha
      · exact absurd hmem List.not_mem_nil
  | cons range ranges ih =>
      obtain ⟨addr, len⟩ := range
      obtain ⟨hone, hrest⟩ := hfit
      refine ih hrest ?_
      rcases ha with ha | ⟨range, hmem, hin⟩
      · exact .inl (covers_noteDirtyIn hone (.inl ha))
      · rw [List.mem_cons] at hmem
        rcases hmem with rfl | hmem
        · exact .inl (covers_noteDirtyIn hone (.inr hin))
        · exact .inr ⟨range, hmem, hin⟩

/-- What a write stores in order, byte by byte up to the first that faults when it crosses
into another page. -/
def landedBytes (m : Memory) (addr : Word) : List Byte → List (Word × Nat)
  | [] => []
  | byte :: bytes =>
      match m.writeInPage addr [byte] with
      | (m, .ok ()) => (addr, 1) :: landedBytes m (addr + 1) bytes
      | (_, .error _) => []

def landed (m : Memory) (addr : Word) (bytes : List Byte) : List (Word × Nat) :=
  if spansPage addr bytes.length then m.landedBytes addr bytes
  else
    match m.writeInPage addr bytes with
    | (_, .ok ()) => [(addr, bytes.length)]
    | (_, .error _) => []

/-- Writes in order, each going on after one that faults. -/
def writeAll (m : Memory) : List (Word × List Byte) → Memory
  | [] => m
  | (addr, bytes) :: writes => (m.writeLe addr bytes).1.writeAll writes

/-- What they store. -/
def landedAll (m : Memory) : List (Word × List Byte) → List (Word × Nat)
  | [] => []
  | (addr, bytes) :: writes =>
      m.landed addr bytes ++ landedAll (m.writeLe addr bytes).1 writes

theorem card_keys_insert (p : Pages) (base : Word) (page : Page) :
    (p.insert base page).keys.card ≤ if base ∈ p then p.keys.card else p.keys.card + 1 := by
  have hkeys : (p.insert base page).keys ⊆ insert base p.keys := by
    intro key hkey
    rw [Finmap.mem_keys, Finmap.mem_insert] at hkey
    rwa [Finset.mem_insert, Finmap.mem_keys]
  have hcard := Finset.card_le_card hkeys
  split
  · next hmem => rwa [Finset.insert_eq_of_mem (Finmap.mem_keys.mpr hmem)] at hcard
  · exact hcard.trans (Finset.card_insert_le _ _)

theorem keys_pageOrMap (m : Memory) (base : Word) :
    base ∈ (m.pageOrMap base).1.pages ∧ (m.pageOrMap base).1.dirty = m.dirty ∧
      (m.pageOrMap base).1.pages.keys.card ≤
        if base ∈ m.pages then m.pages.keys.card else m.pages.keys.card + 1 := by
  unfold pageOrMap
  cases hlook : m.pages.lookup base with
  | some page =>
      have hmem : base ∈ m.pages := Finmap.mem_of_lookup_eq_some hlook
      exact ⟨hmem, rfl, by simp [hmem]⟩
  | none => exact ⟨Finmap.mem_insert.mpr (.inl rfl), rfl, card_keys_insert _ _ _⟩

/-- A write inside one page is refused, or notes one range and stays under the cap. -/
theorem writeInPage_notes (m : Memory) (addr : Word) (bytes : List Byte) :
    (∃ e, m.writeInPage addr bytes = (m, .error e)) ∨
    ∃ m', m.writeInPage addr bytes = (m', .ok ()) ∧
      m'.dirty = noteDirty m.dirty addr.toNat bytes.length ∧
      m'.mappedPageCount ≤ max maxMappedPages m.mappedPageCount := by
  by_cases hrefused : pageBase addr ∉ m.pages ∧ maxMappedPages ≤ m.mappedPageCount
  · exact .inl ⟨_, by rw [writeInPage, if_pos hrefused]⟩
  · right
    obtain ⟨hmem, hdirty, hcount⟩ := m.keys_pageOrMap (pageBase addr)
    refine ⟨(m.pageOrMap (pageBase addr)).1.storeInPage addr (m.pageOrMap (pageBase addr)).2 bytes,
      by rw [writeInPage, if_neg hrefused], ?_, ?_⟩
    · rw [← hdirty]
      rfl
    · have hstore := card_keys_insert (m.pageOrMap (pageBase addr)).1.pages (pageBase addr)
        (Page.splice (m.pageOrMap (pageBase addr)).2 (pageOffset addr) bytes)
      rw [if_pos hmem] at hstore
      have hle := hstore.trans hcount
      show ((m.pageOrMap (pageBase addr)).1.pages.insert (pageBase addr) _).keys.card ≤ _
      refine hle.trans ?_
      split
      · exact le_max_right _ _
      · next hnew =>
          have hroom : ¬ maxMappedPages ≤ m.mappedPageCount := fun h => hrefused ⟨hnew, h⟩
          exact le_max_of_le_left (Nat.lt_of_not_le hroom)

theorem landedBytes_notes (m : Memory) (addr : Word) (bytes : List Byte) :
    (m.writeBytes addr bytes).1.dirty =
        dirtyLog (2 ^ 64) m.dirty (m.landedBytes addr bytes) ∧
      (m.writeBytes addr bytes).1.mappedPageCount ≤ max maxMappedPages m.mappedPageCount := by
  induction bytes generalizing m addr with
  | nil => exact ⟨rfl, le_max_right _ _⟩
  | cons byte bytes ih =>
      rw [writeBytes, landedBytes]
      rcases m.writeInPage_notes addr [byte] with ⟨e, h⟩ | ⟨m', h, hdirty, hcount⟩
      · rw [h]
        exact ⟨rfl, le_max_right _ _⟩
      · rw [h]
        obtain ⟨hrest, hcap⟩ := ih m' (addr + 1)
        refine ⟨?_, by simp only; omega⟩
        simp only [hrest, hdirty, dirtyLog, List.foldl_cons, noteDirtyIn_native,
          List.length_singleton]

theorem landed_notes (m : Memory) (addr : Word) (bytes : List Byte) :
    (m.writeLe addr bytes).1.dirty = dirtyLog (2 ^ 64) m.dirty (m.landed addr bytes) ∧
      (m.writeLe addr bytes).1.mappedPageCount ≤ max maxMappedPages m.mappedPageCount := by
  unfold writeLe landed
  split
  · exact m.landedBytes_notes addr bytes
  · rcases m.writeInPage_notes addr bytes with ⟨e, h⟩ | ⟨m', h, hdirty, hcount⟩
    · rw [h]
      exact ⟨rfl, le_max_right _ _⟩
    · rw [h]
      refine ⟨?_, hcount⟩
      simp only [hdirty, dirtyLog, List.foldl_cons, List.foldl_nil, noteDirtyIn_native]

theorem landedAll_notes (m : Memory) (writes : List (Word × List Byte)) :
    (m.writeAll writes).dirty = dirtyLog (2 ^ 64) m.dirty (m.landedAll writes) ∧
      (m.writeAll writes).mappedPageCount ≤ max maxMappedPages m.mappedPageCount := by
  induction writes generalizing m with
  | nil => exact ⟨rfl, le_max_right _ _⟩
  | cons write writes ih =>
      obtain ⟨addr, bytes⟩ := write
      obtain ⟨hdirty, hcount⟩ := m.landed_notes addr bytes
      obtain ⟨hrest, hcap⟩ := ih (m.writeLe addr bytes).1
      refine ⟨?_, by rw [writeAll]; omega⟩
      rw [writeAll, hrest, hdirty, landedAll]
      simp only [dirtyLog, List.foldl_append]

/-- No write laps the address space. -/
theorem landedAll_in_space {m : Memory} {writes : List (Word × List Byte)}
    (hsizes : ∀ write ∈ writes, 0 < write.2.length ∧ write.2.length ≤ 16)
    {range : Word × Nat} (hrange : range ∈ m.landedAll writes) :
    range.1.toNat + range.2 ≤ 2 ^ 64 := by
  have hbytes : ∀ (bytes : List Byte) (m : Memory) (addr : Word),
      range ∈ m.landedBytes addr bytes → range.1.toNat + range.2 ≤ 2 ^ 64 := by
    intro bytes
    induction bytes with
    | nil => exact fun _ _ h => absurd h List.not_mem_nil
    | cons byte bytes ih =>
        intro m addr h
        rw [landedBytes] at h
        split at h
        · rw [List.mem_cons] at h
          rcases h with rfl | h
          · exact addr.isLt
          · exact ih _ _ h
        · exact absurd h List.not_mem_nil
  induction writes generalizing m with
  | nil => exact absurd hrange List.not_mem_nil
  | cons write writes ih =>
      obtain ⟨addr, bytes⟩ := write
      obtain ⟨hpos, hlen⟩ := hsizes (addr, bytes) List.mem_cons_self
      rw [landedAll, List.mem_append] at hrange
      rcases hrange with hrange | hrange
      · unfold landed at hrange
        split at hrange
        · exact hbytes bytes m addr hrange
        · next hinside =>
            have hfits := offset_add_le_of_not_spansPage hpos hlen (by simpa using hinside)
            have hoff := pageOffset_toNat addr
            have haddr := addr.isLt
            split at hrange
            · rw [List.mem_singleton] at hrange
              subst hrange
              simp only at hfits ⊢
              omega
            · exact absurd hrange List.not_mem_nil
      · exact ih (fun w hw => hsizes w (List.mem_cons_of_mem _ hw)) hrange

/-- From a drain on, with lengths of either width: the log stays within its bound and the
writes within the page cap, and while each range fits when it is noted the log covers every
byte stored. -/
theorem dirty_covers {limit : Nat} {m : Memory} {writes : List (Word × List Byte)}
    (hsizes : ∀ write ∈ writes, 0 < write.2.length ∧ write.2.length ≤ 16)
    (hfit : AllFit limit [] (m.takeDirty.1.landedAll writes)) :
    let drained := m.takeDirty.1
    let log := dirtyLog limit [] (drained.landedAll writes)
    (limit = 2 ^ 64 → (drained.writeAll writes).dirty = log) ∧
      log.length ≤ maxDirtyRanges ∧
      (∀ range ∈ drained.landedAll writes, ∀ i < range.2,
        Covers log (range.1 + BitVec.ofNat 64 i).toNat) ∧
      (drained.writeAll writes).mappedPageCount ≤ max maxMappedPages m.mappedPageCount := by
  intro drained log
  obtain ⟨hdirty, hcount⟩ := drained.landedAll_notes writes
  refine ⟨?_, length_dirtyLog limit (Nat.zero_le _) _, ?_, hcount⟩
  · rintro rfl
    exact hdirty
  · intro range hrange i hi
    have hspace := landedAll_in_space hsizes hrange
    refine covers_dirtyLog hfit (.inr ⟨range, hrange, ?_⟩)
    have hword : (range.1 + BitVec.ofNat 64 i).toNat = range.1.toNat + i := by
      rw [BitVec.toNat_add, BitVec.toNat_ofNat]
      have hlt := range.1.isLt
      omega
    omega

/-- Adjacent words and a byte far from them, then a write into the middle of the first range. -/
theorem dirty_covers_joined :
    let drained := new.takeDirty.1
    let writes := [(0x1000, [1, 2, 3, 4]), (0x1004, [5]), (0x9000, [6]), (0x1002, [7])]
    let log := dirtyLog (2 ^ 32) [] (drained.landedAll writes)
    ((2 ^ 32 : Nat) = 2 ^ 64 → (drained.writeAll writes).dirty = log) ∧
      log.length ≤ maxDirtyRanges ∧
      (∀ range ∈ drained.landedAll writes, ∀ i < range.2,
        Covers log (range.1 + BitVec.ofNat 64 i).toNat) ∧
      (drained.writeAll writes).mappedPageCount ≤ max maxMappedPages new.mappedPageCount :=
  dirty_covers (by decide) (by decide)

/-- The byte at the top of the address space, written after its neighbour, joins a range that
ends below it: memory holds it and the log does not. -/
theorem top_byte_not_covered :
    let m := new.writeAll [(0xFFFFFFFFFFFFFFFE, [1]), (0xFFFFFFFFFFFFFFFF, [2])]
    m.readU8 0xFFFFFFFFFFFFFFFF = .ok 2 ∧ m.dirty = [(0xFFFFFFFFFFFFFFFE, 1)] ∧
      ¬ Covers m.dirty (0xFFFFFFFFFFFFFFFF : Word).toNat := by
  decide

end Memory

end Playground
