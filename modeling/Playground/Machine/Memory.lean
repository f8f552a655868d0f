/-
Sparse memory in 4 KiB pages, mapped on first write.  Reads of unmapped
addresses fault, and a write that would map a page past the cap faults too.
Page buffers are shared and recycled in the source; every buffer that is handed
out again has been zeroed, so here a new page is simply the zero page.
-/
import Playground.Machine.Registers

namespace Playground

/-- Most 4 KiB pages a program may have mapped at once. -/
def maxMappedPages : Nat := 8192

/-- Most ranges the dirty log holds between drains. -/
def maxDirtyRanges : Nat := 4096

/-- One page, by the low twelve bits of the address. -/
abbrev Page := BitVec 12 → Byte

/-- The page table, by page base address. -/
abbrev Pages := Finmap fun _ : Word => Page

def zeroPage : Page := fun _ => 0

def pageMask : Word := ~~~0xFFF

def pageBase (addr : Word) : Word := addr &&& pageMask

def pageOffset (addr : Word) : BitVec 12 := addr.setWidth 12

namespace Page

/-- The bytes `[off, off + len)` of a page. -/
def slice (page : Page) (off : BitVec 12) : Nat → List Byte
  | 0 => []
  | len + 1 => page off :: slice page (off + 1) len

/-- The page with `bytes` copied in from `off` on. -/
def splice (page : Page) (off : BitVec 12) : List Byte → Page
  | [] => page
  | byte :: bytes => splice (Function.update page off byte) (off + 1) bytes

end Page

/-- What a step's writes replaced: each run of written bytes as `(addr, len)`,
the bytes that were there before, and each page a write mapped. -/
structure MemUndo where
  runs : List (Word × Nat)
  old : List Byte
  mapped : List Word

instance : Inhabited MemUndo := ⟨⟨[], [], []⟩⟩

/-- A write that starts where the last run ended extends it. -/
def noteRun (runs : List (Word × Nat)) (addr : Word) (len : Nat) : List (Word × Nat) :=
  match runs.getLast? with
  | some (start, n) =>
      if start + BitVec.ofNat 64 n = addr then runs.dropLast ++ [(start, n + len)]
      else runs ++ [(addr, len)]
  | none => runs ++ [(addr, len)]

structure Memory where
  pages : Pages
  dirty : List (Nat × Nat)
  written : Nat
  /-- `[start, end)` spans that read as zeros before their first write. -/
  zeroFill : List (Word × Word)
  undo : MemUndo
  recording : Bool

namespace Memory

/-- An empty memory with no mapped pages. -/
def new : Memory := ⟨∅, [], 0, [], default, false⟩

/-- Start logging what writes replace, in `slot`'s buffers. -/
def recordUndo (m : Memory) (slot : MemUndo) : Memory × MemUndo :=
  ({ m with undo := { slot with runs := [], old := [], mapped := [] }, recording := true },
    m.undo)

/-- Stop logging and trade the filled log back into `slot`. -/
def finishUndo (m : Memory) (slot : MemUndo) : Memory × MemUndo :=
  if m.recording then ({ m with undo := slot, recording := false }, m.undo)
  else ({ m with recording := false }, slot)

/-- Forget the runs written before the step about to run. -/
def startStep (m : Memory) : Memory :=
  { m with undo := { m.undo with runs := [] } }

def stepWrites (m : Memory) : List (Word × Nat) := m.undo.runs

def setZeroFill (m : Memory) (spans : List (Word × Word)) : Memory :=
  { m with zeroFill := spans }

def inZeroFill (m : Memory) (addr : Word) : Bool :=
  m.zeroFill.any fun span => decide (span.1 ≤ addr) && decide (addr < span.2)

def takeDirty (m : Memory) : Memory × List (Nat × Nat) :=
  ({ m with dirty := [] }, m.dirty)

def bytesWritten (m : Memory) : Nat := m.written

/-- Charge bulk read work against the counter the write path feeds. -/
def noteBulkRead (m : Memory) (len : Nat) : Memory :=
  { m with written := saturatingAdd m.written len }

/-- The dirty log after a write of `[addr, addr + len)`: the newest range grows
when the write touches it or the log is full. -/
def noteDirty (dirty : List (Nat × Nat)) (addr len : Nat) : List (Nat × Nat) :=
  let stop := saturatingAdd addr len
  match dirty.getLast? with
  | some (start, n) =>
      let lastEnd := saturatingAdd start n
      if start ≤ addr ∧ addr ≤ lastEnd then
        dirty.dropLast ++ [(start, max stop lastEnd - start)]
      else if maxDirtyRanges ≤ dirty.length then
        dirty.dropLast ++ [(min start addr, max lastEnd stop - min start addr)]
      else dirty ++ [(addr, len)]
  | none => dirty ++ [(addr, len)]

def noteWrite (m : Memory) (addr : Word) (len : Nat) : Memory :=
  { m with
    written := saturatingAdd m.written len
    dirty := noteDirty m.dirty addr.toNat len }

/-- The page at `base`, mapped first if it is new (and the mapping logged, when
an undo log is open). -/
def pageOrMap (m : Memory) (base : Word) : Memory × Page :=
  match m.pages.lookup base with
  | some page => (m, page)
  | none =>
      ({ m with
          pages := m.pages.insert base zeroPage
          undo := if m.recording then { m.undo with mapped := m.undo.mapped ++ [base] }
            else m.undo },
        zeroPage)

/-- Explicitly map a page so it can be read before being written. -/
def mapPage (m : Memory) (addr : Word) : Memory :=
  (m.pageOrMap (pageBase addr)).1

def isMapped (m : Memory) (addr : Word) : Bool :=
  decide (pageBase addr ∈ m.pages) || m.inZeroFill addr

def mappedPageCount (m : Memory) : Nat := m.pages.keys.card

/-- Unmap every page. -/
def clear (m : Memory) : Memory :=
  { m with zeroFill := [], pages := ∅ }

def getPage (m : Memory) (addr : Word) : Except EmuError Page :=
  match m.pages.lookup (pageBase addr) with
  | some page => .ok page
  | none => if m.inZeroFill addr then .ok zeroPage else .error (.memoryFault addr .read)

/-- Copy `bytes` into `page`, the page of `addr`, and note the run and what it
replaced. -/
def storeInPage (m : Memory) (addr : Word) (page : Page) (bytes : List Byte) : Memory :=
  let replaced := page.slice (pageOffset addr) bytes.length
  let m := { m with
    pages := m.pages.insert (pageBase addr) (page.splice (pageOffset addr) bytes)
    undo := { m.undo with
      runs := noteRun m.undo.runs addr bytes.length
      old := if m.recording then m.undo.old ++ replaced else m.undo.old } }
  m.noteWrite addr bytes.length

/-- Write `bytes` (16 at most, all inside `addr`'s page), mapping the page on
first write and logging what they replace when an undo log is open. -/
def writeInPage (m : Memory) (addr : Word) (bytes : List Byte) :
    Memory × Except EmuError Unit :=
  let base := pageBase addr
  if base ∉ m.pages ∧ maxMappedPages ≤ m.mappedPageCount then
    (m, .error (.memoryFault addr .write))
  else
    let (m, page) := m.pageOrMap base
    (m.storeInPage addr page bytes, .ok ())

/-- Write a run of bytes one at a time, up to the first that faults. -/
def writeBytes (m : Memory) (addr : Word) : List Byte → Memory × Except EmuError Unit
  | [] => (m, .ok ())
  | byte :: bytes =>
      match m.writeInPage addr [byte] with
      | (m, .ok ()) => m.writeBytes (addr + 1) bytes
      | (m, .error e) => (m, .error e)

def spansPage (addr : Word) (len : Nat) : Bool :=
  decide (pageBase addr ≠ pageBase (addr + BitVec.ofNat 64 len - 1))

/-- Write `bytes` (16 at most, already little-endian).  One that crosses into
the next page goes byte by byte, so each page is mapped (or refused at the cap)
as it is reached. -/
def writeLe (m : Memory) (addr : Word) (bytes : List Byte) : Memory × Except EmuError Unit :=
  if spansPage addr bytes.length then m.writeBytes addr bytes
  else m.writeInPage addr bytes

/-- The `n` low bytes of `value`, least significant first. -/
def leBytes : Nat → Nat → List Byte
  | 0, _ => []
  | n + 1, value => BitVec.ofNat 8 value :: leBytes n (value / 256)

/-- The number little-endian bytes spell. -/
def leValue : List Byte → Nat
  | [] => 0
  | byte :: bytes => byte.toNat + 256 * leValue bytes

def writeU8 (m : Memory) (addr : Word) (val : Byte) := m.writeInPage addr [val]

def writeU16 (m : Memory) (addr : Word) (val : BitVec 16) :=
  m.writeLe addr (leBytes 2 val.toNat)

def writeU32 (m : Memory) (addr : Word) (val : BitVec 32) :=
  m.writeLe addr (leBytes 4 val.toNat)

def writeU64 (m : Memory) (addr : Word) (val : Word) :=
  m.writeLe addr (leBytes 8 val.toNat)

def writeU128 (m : Memory) (addr : Word) (val : BitVec 128) :=
  m.writeLe addr (leBytes 16 val.toNat)

def readU8 (m : Memory) (addr : Word) : Except EmuError Byte := do
  let page ← m.getPage addr
  return page (pageOffset addr)

/-- Read `n` bytes one at a time, up to the first that faults. -/
def readEach (m : Memory) (addr : Word) : Nat → Except EmuError (List Byte)
  | 0 => .ok []
  | n + 1 => do
      let byte ← m.readU8 addr
      let bytes ← m.readEach (addr + 1) n
      return byte :: bytes

/-- The shared body of the multi-byte reads: through one page when the access
stays inside it, byte by byte when it does not. -/
def readLe (m : Memory) (addr : Word) (n : Nat) : Except EmuError Nat := do
  if spansPage addr n then
    let bytes ← m.readEach addr n
    return leValue bytes
  let page ← m.getPage addr
  return leValue (page.slice (pageOffset addr) n)

def readU16 (m : Memory) (addr : Word) : Except EmuError (BitVec 16) :=
  (m.readLe addr 2).map (BitVec.ofNat 16)

def readU32 (m : Memory) (addr : Word) : Except EmuError (BitVec 32) :=
  (m.readLe addr 4).map (BitVec.ofNat 32)

def readU64 (m : Memory) (addr : Word) : Except EmuError Word :=
  (m.readLe addr 8).map (BitVec.ofNat 64)

def readU128 (m : Memory) (addr : Word) : Except EmuError (BitVec 128) :=
  (m.readLe addr 16).map (BitVec.ofNat 128)

/-- Write a run's replaced bytes back from `addr` on, 16 at a time. -/
def restoreChunks (m : Memory) (addr : Word) (old : List Byte) : Memory :=
  (List.range ((old.length + 15) / 16)).foldl (fun m i =>
    (m.writeLe (addr + BitVec.ofNat 64 (16 * i)) ((old.drop (16 * i)).take 16)).1) m

/-- Put the runs back, given newest first, each from the end of `old`. -/
def restoreRuns (m : Memory) (old : List Byte) : List (Word × Nat) → Memory
  | [] => m
  | (addr, len) :: runs =>
      let start := old.length - len
      (m.restoreChunks addr (old.drop start)).restoreRuns (old.take start) runs

/-- Put back what the logged writes replaced, newest first, then unmap the
pages they mapped.  The changed-byte log empties too. -/
def undoStep (m : Memory) (log : MemUndo) : Memory :=
  let m := m.restoreRuns log.old log.runs.reverse
  { m with
    pages := log.mapped.foldl (fun pages base => pages.erase base) m.pages
    dirty := [] }

end Memory

end Playground
