/-
The recycle pool of page buffers.  The source never frees a page's buffer: a page unmapped
while no named save shares it goes to a pool, and the next page mapped takes its buffer from
there.  Here the pool is part of the state, its buffers hold what the source leaves in them,
and which pages a save shares is not known.
-/
import Playground.Machine.MemoryUndo

namespace Playground

/-- Memory with its pool, the last buffer parked being the first handed out. -/
structure PooledMemory extends Memory where
  free : List Page

namespace PooledMemory

def newPage : Page := fun _ => 0

/-- Set every byte of a buffer. -/
def fill (_page : Page) (byte : Byte) : Page := fun _ => byte

def new : PooledMemory := ⟨Memory.new, []⟩

/-- A named save leaves the pool and both logs behind. -/
def clone (m : PooledMemory) : PooledMemory :=
  ⟨⟨m.pages, [], m.written, m.zeroFill, default, false⟩, []⟩

/-- Park an unmapped page's buffer, zeroed, unless a save shares it. -/
def park (free : List Page) (page : Page) (shared : Bool) : List Page :=
  if shared then free else free ++ [fill page 0]

/-- The page at `base`, mapped first if it is new: its buffer is a parked one, or fresh. -/
def pageOrMap (m : PooledMemory) (base : Word) : PooledMemory × Page :=
  match m.pages.lookup base with
  | some page => (m, page)
  | none =>
      let page := m.free.getLast?.getD newPage
      (⟨{ m.toMemory with
          pages := m.pages.insert base page
          undo := if m.recording then { m.undo with mapped := m.undo.mapped ++ [base] }
            else m.undo }, m.free.dropLast⟩, page)

def mapPage (m : PooledMemory) (addr : Word) : PooledMemory :=
  (m.pageOrMap (pageBase addr)).1

/-- Write `bytes` (16 at most, all inside `addr`'s page).  A page a save shares is copied
before it is changed, so a page here is a value. -/
def writeInPage (m : PooledMemory) (addr : Word) (bytes : List Byte) :
    PooledMemory × Except EmuError Unit :=
  let base := pageBase addr
  if base ∉ m.pages ∧ maxMappedPages ≤ m.mappedPageCount then
    (m, .error (.memoryFault addr .write))
  else
    let (m, page) := m.pageOrMap base
    (⟨m.storeInPage addr page bytes, m.free⟩, .ok ())

def writeBytes (m : PooledMemory) (addr : Word) : List Byte → PooledMemory × Except EmuError Unit
  | [] => (m, .ok ())
  | byte :: bytes =>
      match m.writeInPage addr [byte] with
      | (m, .ok ()) => m.writeBytes (addr + 1) bytes
      | (m, .error e) => (m, .error e)

def writeLe (m : PooledMemory) (addr : Word) (bytes : List Byte) :
    PooledMemory × Except EmuError Unit :=
  if Memory.spansPage addr bytes.length then m.writeBytes addr bytes
  else m.writeInPage addr bytes

/-- Unmap every page.  The table is drained in an order of its own. -/
def clear (m : PooledMemory) (drained : List Word) (shared : Word → Bool) : PooledMemory :=
  ⟨m.toMemory.clear, drained.foldl (fun free base =>
    match m.pages.lookup base with
    | some page => park free page (shared base)
    | none => free) m.free⟩

def restoreChunks (m : PooledMemory) (addr : Word) (old : List Byte) : PooledMemory :=
  (List.range ((old.length + 15) / 16)).foldl (fun m i =>
    (m.writeLe (addr + BitVec.ofNat 64 (16 * i)) ((old.drop (16 * i)).take 16)).1) m

def restoreRuns (m : PooledMemory) (old : List Byte) : List (Word × Nat) → PooledMemory
  | [] => m
  | (addr, len) :: runs =>
      let start := old.length - len
      (m.restoreChunks addr (old.drop start)).restoreRuns (old.take start) runs

def unmap (m : PooledMemory) (shared : Word → Bool) (base : Word) : PooledMemory :=
  match m.pages.lookup base with
  | some page => ⟨{ m.toMemory with pages := m.pages.erase base }, park m.free page (shared base)⟩
  | none => m

/-- Put back what the logged writes replaced, newest first, then unmap the pages they
mapped. -/
def undoStep (m : PooledMemory) (log : MemUndo) (shared : Word → Bool) : PooledMemory :=
  let m := log.mapped.foldl (unmap · shared) (m.restoreRuns log.old log.runs.reverse)
  ⟨{ m.toMemory with dirty := [] }, m.free⟩

def recordUndo (m : PooledMemory) (slot : MemUndo) : PooledMemory × MemUndo :=
  (⟨(m.toMemory.recordUndo slot).1, m.free⟩, (m.toMemory.recordUndo slot).2)

def finishUndo (m : PooledMemory) (slot : MemUndo) : PooledMemory × MemUndo :=
  (⟨(m.toMemory.finishUndo slot).1, m.free⟩, (m.toMemory.finishUndo slot).2)

/-- Every buffer of the pool is zeroed. -/
def Clean (m : PooledMemory) : Prop := ∀ page ∈ m.free, page = zeroPage

variable {m : PooledMemory}

theorem clean_park {free : List Page} (h : ∀ page ∈ free, page = zeroPage) (page : Page)
    (shared : Bool) : ∀ page' ∈ park free page shared, page' = zeroPage := by
  unfold park
  split
  · exact h
  · intro page' hmem
    rw [List.mem_append, List.mem_singleton] at hmem
    rcases hmem with hmem | rfl
    · exact h page' hmem
    · rfl

/-- What an operation of the pooled memory and the memory below it agree on. -/
structure Agrees (m : PooledMemory) (m' : Memory) : Prop where
  memory : m.toMemory = m'
  clean : m.Clean

/-- A freshly mapped page reads as zeros, so the pool is not seen. -/
theorem agrees_pageOrMap (h : m.Clean) (base : Word) :
    Agrees (m.pageOrMap base).1 (m.toMemory.pageOrMap base).1 ∧
      (m.pageOrMap base).2 = (m.toMemory.pageOrMap base).2 := by
  have hpage : m.free.getLast?.getD newPage = zeroPage := by
    cases hlast : m.free.getLast? with
    | none => rfl
    | some page => exact h page (List.mem_of_getLast? hlast)
  unfold pageOrMap Memory.pageOrMap
  cases m.pages.lookup base with
  | some page => exact ⟨⟨rfl, h⟩, rfl⟩
  | none =>
      simp only [hpage]
      exact ⟨⟨rfl, fun page hmem => h page (List.dropLast_subset _ hmem)⟩, trivial⟩

theorem agrees_mapPage (h : m.Clean) (addr : Word) :
    Agrees (m.mapPage addr) (m.toMemory.mapPage addr) :=
  (agrees_pageOrMap h (pageBase addr)).1

theorem agrees_writeInPage (h : m.Clean) (addr : Word) (bytes : List Byte) :
    Agrees (m.writeInPage addr bytes).1 (m.toMemory.writeInPage addr bytes).1 ∧
      (m.writeInPage addr bytes).2 = (m.toMemory.writeInPage addr bytes).2 := by
  by_cases hrefused : pageBase addr ∉ m.pages ∧ maxMappedPages ≤ m.mappedPageCount
  · simp only [writeInPage, Memory.writeInPage, if_pos hrefused, and_true]
    exact ⟨rfl, h⟩
  · obtain ⟨hmapped, hpage⟩ := agrees_pageOrMap h (pageBase addr)
    simp only [writeInPage, Memory.writeInPage, if_neg hrefused, and_true]
    refine ⟨?_, hmapped.clean⟩
    simp only [hmapped.memory, hpage]

theorem agrees_writeBytes (h : m.Clean) (addr : Word) (bytes : List Byte) :
    Agrees (m.writeBytes addr bytes).1 (m.toMemory.writeBytes addr bytes).1 ∧
      (m.writeBytes addr bytes).2 = (m.toMemory.writeBytes addr bytes).2 := by
  induction bytes generalizing m addr with
  | nil => exact ⟨⟨rfl, h⟩, rfl⟩
  | cons byte bytes ih =>
      obtain ⟨hagrees, hresult⟩ := agrees_writeInPage h addr [byte]
      unfold writeBytes Memory.writeBytes
      rcases hone : m.writeInPage addr [byte] with ⟨m₁, result⟩
      rcases hone' : m.toMemory.writeInPage addr [byte] with ⟨m₁', result'⟩
      rw [hone, hone'] at hagrees hresult
      simp only at hresult
      subst hresult
      cases result with
      | ok _ =>
          have hmem : m₁.toMemory = m₁' := hagrees.memory
          subst hmem
          exact ih hagrees.clean (addr + 1)
      | error e => exact ⟨hagrees, rfl⟩

theorem agrees_writeLe (h : m.Clean) (addr : Word) (bytes : List Byte) :
    Agrees (m.writeLe addr bytes).1 (m.toMemory.writeLe addr bytes).1 ∧
      (m.writeLe addr bytes).2 = (m.toMemory.writeLe addr bytes).2 := by
  unfold writeLe Memory.writeLe
  split
  · exact agrees_writeBytes h addr bytes
  · exact agrees_writeInPage h addr bytes

theorem clean_clear (h : m.Clean) (drained : List Word) (shared : Word → Bool) :
    (m.clear drained shared).Clean := by
  have hfold : ∀ free : List Page, (∀ page ∈ free, page = zeroPage) →
      ∀ page ∈ drained.foldl (fun free base =>
        match m.pages.lookup base with
        | some page => park free page (shared base)
        | none => free) free, page = zeroPage := by
    induction drained with
    | nil => exact fun _ hfree => hfree
    | cons base drained ih =>
        intro free hfree
        rw [List.foldl_cons]
        apply ih
        cases m.pages.lookup base with
        | some page => exact clean_park hfree page (shared base)
        | none => exact hfree
  exact hfold m.free h

theorem agrees_restoreChunks (h : m.Clean) (addr : Word) (old : List Byte) :
    Agrees (m.restoreChunks addr old) (m.toMemory.restoreChunks addr old) := by
  unfold restoreChunks Memory.restoreChunks
  generalize List.range ((old.length + 15) / 16) = chunks
  induction chunks generalizing m with
  | nil => exact ⟨rfl, h⟩
  | cons i chunks ih =>
      obtain ⟨hagrees, -⟩ := agrees_writeLe h (addr + BitVec.ofNat 64 (16 * i))
        ((old.drop (16 * i)).take 16)
      rw [List.foldl_cons, List.foldl_cons, ← hagrees.memory]
      exact ih hagrees.clean

theorem agrees_restoreRuns (h : m.Clean) (old : List Byte) (runs : List (Word × Nat)) :
    Agrees (m.restoreRuns old runs) (m.toMemory.restoreRuns old runs) := by
  induction runs generalizing m old with
  | nil => exact ⟨rfl, h⟩
  | cons run runs ih =>
      obtain ⟨addr, len⟩ := run
      have hagrees := agrees_restoreChunks h addr (old.drop (old.length - len))
      rw [restoreRuns, Memory.restoreRuns, ← hagrees.memory]
      exact ih hagrees.clean _

theorem agrees_unmap (h : m.Clean) (shared : Word → Bool) (base : Word) :
    Agrees (m.unmap shared base) { m.toMemory with pages := m.pages.erase base } := by
  unfold unmap
  cases hlook : m.pages.lookup base with
  | some page => exact ⟨rfl, clean_park h page (shared base)⟩
  | none =>
      have herase : m.pages.erase base = m.pages := by
        apply Finmap.ext_lookup
        intro key
        by_cases hkey : key = base
        · subst hkey
          rw [Finmap.lookup_erase, hlook]
        · exact Finmap.lookup_erase_ne hkey
      refine ⟨?_, h⟩
      rw [herase]

theorem agrees_unmapAll (h : m.Clean) (shared : Word → Bool) (mapped : List Word) :
    Agrees (mapped.foldl (unmap · shared) m)
      { m.toMemory with pages := mapped.foldl (fun pages base => pages.erase base) m.pages } := by
  induction mapped generalizing m with
  | nil => exact ⟨rfl, h⟩
  | cons base mapped ih =>
      have hone := agrees_unmap h shared base
      have hrest := ih hone.clean
      rw [hone.memory] at hrest
      exact hrest

theorem agrees_undoStep (h : m.Clean) (log : MemUndo) (shared : Word → Bool) :
    Agrees (m.undoStep log shared) (m.toMemory.undoStep log) := by
  have hruns := agrees_restoreRuns h log.old log.runs.reverse
  have hall := agrees_unmapAll hruns.clean shared log.mapped
  refine ⟨?_, hall.clean⟩
  unfold undoStep Memory.undoStep
  simp only [hall.memory, hruns.memory]

end PooledMemory

end Playground
