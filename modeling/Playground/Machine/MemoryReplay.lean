/-
A step's writes undone from any memory at all.  No page budget is needed for this: the runs
of a log are no longer together than its saved bytes, whose number is a machine word.
-/
import Playground.Machine.PagePool

namespace Playground

theorem le_runsLength {runs : List (Word × Nat)} {run : Word × Nat} (h : run ∈ runs) :
    run.2 ≤ runsLength runs :=
  List.le_sum_of_mem (List.mem_map_of_mem h)

namespace Memory

/-- What writes preserve of the log they are recorded in, as long as its saved bytes fit the
buffer. -/
structure Extends (m m' : Memory) : Prop where
  recording : m'.recording = m.recording
  zeroFill : m'.zeroFill = m.zeroFill
  grows : m.recording = true → m.undo.old.length ≤ m'.undo.old.length
  recorded : ∀ p, m'.undo.old.length < 2 ^ 64 → Recorded p m → Recorded p m'

theorem Extends.refl (m : Memory) : Extends m m := ⟨rfl, rfl, fun _ => le_rfl, fun _ _ => id⟩

theorem Extends.trans {m m' m'' : Memory} (first : Extends m m') (second : Extends m' m'') :
    Extends m m'' where
  recording := second.recording.trans first.recording
  zeroFill := second.zeroFill.trans first.zeroFill
  grows := fun hrec => (first.grows hrec).trans (second.grows (first.recording.trans hrec))
  recorded := by
    intro p hroom hr
    have hgrows := second.grows (first.recording.trans hr.recording)
    exact second.recorded p hroom (first.recorded p (by omega) hr)

theorem extends_writeInPage (m : Memory) (addr : Word) (bytes : List Byte)
    (hfits : (pageOffset addr).toNat + bytes.length ≤ 4096) :
    Extends m (m.writeInPage addr bytes).1 := by
  rcases m.writeInPage_cases addr bytes hfits with ⟨h, -⟩ | ⟨m', h, hw⟩
  · rw [h]
    exact Extends.refl m
  · rw [h]
    obtain ⟨q, -, -, hold⟩ := hw.pages
    refine ⟨hw.recording, hw.zeroFill, ?_, ?_⟩
    · intro hrec
      rw [hold hrec, List.length_append]
      exact Nat.le_add_right _ _
    · intro p hroom hr
      have hroom' : m'.undo.old.length < 2 ^ 64 := hroom
      have hlengths : runsLength m'.undo.runs = m'.undo.old.length := by
        rw [hw.runs, runsLength_noteRun, hr.lengths, hold hr.recording, List.length_append,
          length_peekAll]
      refine hr.wrote_of_short hfits hw ?_
      intro run hrun
      have hle : run.2 ≤ runsLength m'.undo.runs := le_runsLength hrun
      omega

theorem extends_writeBytes (m : Memory) (addr : Word) (bytes : List Byte) :
    Extends m (m.writeBytes addr bytes).1 := by
  induction bytes generalizing m addr with
  | nil => exact Extends.refl m
  | cons byte bytes ih =>
      have hhead := extends_writeInPage m addr [byte] (pageOffset addr).isLt
      rw [writeBytes]
      split
      · next m' h =>
          rw [h] at hhead
          exact hhead.trans (ih m' (addr + 1))
      · next m' e h =>
          rw [h] at hhead
          exact hhead

theorem extends_writeLe (m : Memory) (addr : Word) {bytes : List Byte} (hpos : 0 < bytes.length)
    (hlen : bytes.length ≤ 16) : Extends m (m.writeLe addr bytes).1 := by
  rw [writeLe]
  split
  · exact extends_writeBytes m addr bytes
  · next h =>
      exact extends_writeInPage m addr bytes
        (offset_add_le_of_not_spansPage hpos hlen (by simpa using h))

end Memory

namespace PooledMemory

/-- Writes in order, each going on after one that faults. -/
def writeAll (m : PooledMemory) (writes : List (Word × List Byte)) : PooledMemory :=
  writes.foldl (fun m write => (m.writeLe write.1 write.2).1) m

theorem extends_writeAll {m : PooledMemory} (h : m.Clean) {writes : List (Word × List Byte)}
    (hsizes : ∀ write ∈ writes, 0 < write.2.length ∧ write.2.length ≤ 16) :
    Memory.Extends m.toMemory (m.writeAll writes).toMemory ∧ (m.writeAll writes).Clean := by
  induction writes generalizing m with
  | nil => exact ⟨Memory.Extends.refl _, h⟩
  | cons write writes ih =>
      obtain ⟨hpos, hlen⟩ := hsizes write List.mem_cons_self
      have hagrees := (agrees_writeLe h write.1 write.2).1
      have hone := Memory.extends_writeLe m.toMemory write.1 hpos hlen
      rw [← hagrees.memory] at hone
      obtain ⟨hrest, hclean⟩ := ih hagrees.clean fun w hw => hsizes w (List.mem_cons_of_mem _ hw)
      exact ⟨hone.trans hrest, hclean⟩

/-- A call that reaches the page table, the pool or the logs. -/
inductive Call where
  | clone
  | recordUndo (slot : MemUndo)
  | finishUndo (slot : MemUndo)
  | undoStep (log : MemUndo) (shared : Word → Bool)
  | startStep
  | setZeroFill (spans : List (Word × Word))
  | takeDirty
  | noteBulkRead (len : Nat)
  | mapPage (addr : Word)
  | clear (drained : List Word) (shared : Word → Bool)
  | write (addr : Word) (bytes : List Byte)
  | writeBytes (addr : Word) (data : List Byte)

def Call.run (m : PooledMemory) : Call → PooledMemory
  | .clone => m.clone
  | .recordUndo slot => (m.recordUndo slot).1
  | .finishUndo slot => (m.finishUndo slot).1
  | .undoStep log shared => m.undoStep log shared
  | .startStep => ⟨m.toMemory.startStep, m.free⟩
  | .setZeroFill spans => ⟨m.toMemory.setZeroFill spans, m.free⟩
  | .takeDirty => ⟨m.toMemory.takeDirty.1, m.free⟩
  | .noteBulkRead len => ⟨m.toMemory.noteBulkRead len, m.free⟩
  | .mapPage addr => m.mapPage addr
  | .clear drained shared => m.clear drained shared
  | .write addr bytes => (m.writeLe addr bytes).1
  | .writeBytes addr data => (m.writeBytes addr data).1

theorem clean_run {m : PooledMemory} (h : m.Clean) (call : Call) : (call.run m).Clean := by
  cases call with
  | clone => exact fun page hmem => absurd hmem List.not_mem_nil
  | recordUndo slot => exact h
  | finishUndo slot => exact h
  | undoStep log shared => exact (agrees_undoStep h log shared).clean
  | startStep => exact h
  | setZeroFill spans => exact h
  | takeDirty => exact h
  | noteBulkRead len => exact h
  | mapPage addr => exact (agrees_mapPage h addr).clean
  | clear drained shared => exact clean_clear h drained shared
  | write addr bytes => exact (agrees_writeLe h addr bytes).1.clean
  | writeBytes addr data => exact (agrees_writeBytes h addr data).1.clean

theorem clean_new : new.Clean := fun _ hmem => absurd hmem List.not_mem_nil

theorem clean_calls (calls : List Call) : (calls.foldl Call.run new).Clean := by
  induction calls using List.reverseRecOn with
  | nil => exact clean_new
  | append_singleton calls call ih =>
      rw [List.foldl_append]
      exact clean_run ih call

/-- A page mapped from a zeroed pool reads as zeros. -/
theorem readU8_mapPage {m : PooledMemory} (h : m.Clean) {addr : Word}
    (hnew : pageBase addr ∉ m.pages) : (m.mapPage addr).readU8 addr = .ok 0 := by
  have hlook : m.pages.lookup (pageBase addr) = none := Finmap.lookup_eq_none.mpr hnew
  rw [(agrees_mapPage h addr).memory]
  simp [Memory.mapPage, Memory.pageOrMap, hlook, Memory.readU8, Memory.getPage, zeroPage]

/-- Stepping back puts the table of pages back, whatever the step wrote. -/
theorem undo_writeAll {m : PooledMemory} (hm : m.Clean) (slot : MemUndo)
    {writes : List (Word × List Byte)} (shared : Word → Bool)
    (hsizes : ∀ write ∈ writes, 0 < write.2.length ∧ write.2.length ≤ 16)
    (hroom : ((m.recordUndo slot).1.writeAll writes).undo.old.length < 2 ^ 64) :
    let started := m.recordUndo slot
    let stopped := (started.1.writeAll writes).finishUndo started.2
    let undone := stopped.1.undoStep stopped.2 shared
    runsLength stopped.2.runs = stopped.2.old.length ∧ undone.pages = m.pages ∧
      undone.zeroFill = m.zeroFill ∧ undone.Clean := by
  intro started stopped undone
  have hstarted : Memory.Recorded m.pages started.1.toMemory :=
    Memory.recorded_recordUndo m.toMemory slot
  obtain ⟨hextends, hclean⟩ := extends_writeAll (m := started.1) hm hsizes
  have hrecorded := hextends.recorded m.pages hroom hstarted
  have hstopped : stopped.2 = (started.1.writeAll writes).undo := by
    simp only [stopped, finishUndo, Memory.finishUndo, hrecorded.recording, if_true]
  have hpages : stopped.1.pages = (started.1.writeAll writes).pages := by
    simp only [stopped, finishUndo, Memory.finishUndo, hrecorded.recording, if_true]
  have hzero : stopped.1.zeroFill = m.zeroFill := by
    have hkept : stopped.1.zeroFill = (started.1.writeAll writes).zeroFill := by
      simp only [stopped, finishUndo, Memory.finishUndo, hrecorded.recording, if_true]
    exact hkept.trans hextends.zeroFill
  have hfree : stopped.1.Clean := hclean
  have hagrees := agrees_undoStep hfree stopped.2 shared
  obtain ⟨hback, -, hspans⟩ := Memory.undoStep_of_recorded hrecorded hpages
  rw [← hstopped, ← hagrees.memory] at hback hspans
  refine ⟨?_, hback, hspans.trans hzero, hagrees.clean⟩
  rw [hstopped]
  exact hrecorded.lengths

theorem readU8_congr {m m' : Memory} (hpages : m'.pages = m.pages)
    (hzero : m'.zeroFill = m.zeroFill) (addr : Word) : m'.readU8 addr = m.readU8 addr := by
  have hpage : m'.getPage addr = m.getPage addr := by
    unfold Memory.getPage Memory.inZeroFill
    rw [hpages, hzero]
  rw [Memory.readU8, Memory.readU8, hpage]

/-- The pool holds zeroed buffers after every run of calls, so a page mapped next reads as
zeros; and the log of a step's writes is exact from every memory with such a pool. -/
theorem undo_exact :
    (∀ (calls : List Call) addr, (calls.foldl Call.run new).Clean ∧
      (pageBase addr ∉ (calls.foldl Call.run new).pages →
        ((calls.foldl Call.run new).mapPage addr).readU8 addr = .ok 0)) ∧
    ∀ (m : PooledMemory) (slot : MemUndo) (writes : List (Word × List Byte))
      (shared : Word → Bool), m.Clean →
      (∀ write ∈ writes, 0 < write.2.length ∧ write.2.length ≤ 16) →
      ((m.recordUndo slot).1.writeAll writes).undo.old.length < 2 ^ 64 →
      let started := m.recordUndo slot
      let stopped := (started.1.writeAll writes).finishUndo started.2
      let undone := stopped.1.undoStep stopped.2 shared
      runsLength stopped.2.runs = stopped.2.old.length ∧ undone.pages = m.pages ∧
        (∀ addr, undone.readU8 addr = m.readU8 addr) ∧ undone.Clean := by
  refine ⟨fun calls addr => ⟨clean_calls calls, readU8_mapPage (clean_calls calls)⟩, ?_⟩
  intro m slot writes shared hm hsizes hroom started stopped undone
  obtain ⟨hlengths, hpages, hzero, hclean⟩ := undo_writeAll hm slot shared hsizes hroom
  exact ⟨hlengths, hpages, readU8_congr hpages hzero, hclean⟩

/-- Two writes that join into one run, one over both again, and one across a page's end. -/
theorem undo_exact_crossing :
    let started := new.recordUndo default
    let stopped := (started.1.writeAll
      [(0x1FF0, [1, 2]), (0x1FF2, [3]), (0x1FF1, [4, 5]), (0x1FFF, [6, 7])]).finishUndo started.2
    let undone := stopped.1.undoStep stopped.2 fun _ => false
    runsLength stopped.2.runs = stopped.2.old.length ∧ undone.pages = new.pages ∧
      (∀ addr, undone.readU8 addr = new.readU8 addr) ∧ undone.Clean :=
  undo_exact.2 new default _ _ clean_new (by decide) (by decide)

end PooledMemory

end Playground
