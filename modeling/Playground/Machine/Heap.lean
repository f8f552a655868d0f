/-
`malloc` and `free` over a fixed window.  The allocator is host-side state: a
bump frontier, an address-ordered free list that coalesces neighbours, and the
table of live blocks.  Every change is logged so a step-back frame can reverse
it.
-/
import Playground.Machine.Memory

namespace Playground

/-- The heap window sits above the argv page and far below the stack. -/
def heapBase : Nat := 0x900000

def heapLimit : Nat := heapBase + 16 * 1024 * 1024

def heapAlign : Nat := 16

/-- One change to the allocator's tables, as step-back reverses it. -/
inductive HeapEdit
  | next (old : Nat)
  | allocated (addr : Nat)
  | released (addr size : Nat)
  | freeSet (index : Nat) (old : Nat × Nat)
  | freeInserted (index : Nat)
  | freeRemoved (index : Nat) (old : Nat × Nat)
deriving DecidableEq, Repr

/-- The allocator's three tables: the bump frontier, the freed blocks as
`(address, size)` and the live blocks by address. -/
structure HeapTables where
  next : Nat
  free : List (Nat × Nat)
  live : Finmap fun _ : Nat => Nat

structure HeapState extends HeapTables where
  undo : List HeapEdit
  recording : Bool

/-- Reverse one change. -/
def HeapTables.revert (edit : HeapEdit) (t : HeapTables) : HeapTables :=
  match edit with
  | .next old => { t with next := old }
  | .allocated addr => { t with live := t.live.erase addr }
  | .released addr size => { t with live := t.live.insert addr size }
  | .freeSet i old => { t with free := t.free.set i old }
  | .freeInserted i => { t with free := t.free.eraseIdx i }
  | .freeRemoved i old => { t with free := t.free.insertIdx i old }

namespace HeapState

def new : HeapState := ⟨⟨heapBase, [], ∅⟩, [], false⟩

def recordUndo (h : HeapState) (_slot : List HeapEdit) : HeapState × List HeapEdit :=
  ({ h with undo := [], recording := true }, h.undo)

def finishUndo (h : HeapState) (slot : List HeapEdit) : HeapState × List HeapEdit :=
  if h.recording then ({ h with undo := slot, recording := false }, h.undo)
  else ({ h with recording := false }, slot)

/-- Reverse the logged changes, newest first. -/
def undoStep (h : HeapState) (log : List HeapEdit) : HeapState :=
  { h with toHeapTables := Journal.revertAll HeapTables.revert log h.toHeapTables }

def log (h : HeapState) (edit : HeapEdit) : HeapState :=
  if h.recording then { h with undo := h.undo ++ [edit] } else h

/-- Make the block at `addr` live. -/
def insertLive (h : HeapState) (addr size : Nat) : HeapState :=
  ({ h with live := h.live.insert addr size }).log (.allocated addr)

/-- Take `size` bytes out of the free entry `(addr, block)` at `index`: the
whole entry, or its front with the rest left behind. -/
def takeFree (h : HeapState) (index : Nat) (addr block size : Nat) : HeapState :=
  if block = size then
    ({ h with free := h.free.eraseIdx index }).log (.freeRemoved index (addr, block))
  else
    let h := h.log (.freeSet index (addr, block))
    { h with free := h.free.set index (addr + size, block - size) }

/-- Move the bump frontier past a new block. -/
def bump (h : HeapState) (size : Nat) : HeapState :=
  let h := h.log (.next h.next)
  { h with next := h.next + size }

/-- Allocate `size` bytes, rounded up to the alignment: first fit from the free
list, then the bump frontier.  `none` when the window is exhausted. -/
def alloc (h : HeapState) (size : Nat) : HeapState × Option Nat :=
  if 2 ^ 64 ≤ max size 1 + (heapAlign - 1) then (h, none)
  else
    let size := (max size 1 + (heapAlign - 1)) / heapAlign * heapAlign
    match h.free.findIdx? (fun entry => decide (size ≤ entry.2)) with
    | some i =>
        let (addr, block) := h.free.getD i (0, 0)
        ((h.takeFree i addr block size).insertLive addr size, some addr)
    | none =>
        if 2 ^ 64 ≤ h.next + size ∨ heapLimit < h.next + size then (h, none)
        else ((h.bump size).insertLive h.next size, some h.next)

def blockSize (h : HeapState) (addr : Nat) : Option Nat := h.live.lookup addr

/-- Why an address is not a block `free` or `realloc` may take. -/
def rejectReason (h : HeapState) (addr : Nat) : String :=
  if h.free.any (fun entry => entry.1 == addr) then "already freed (double free)"
  else "not an address malloc returned"

/-- Merge the free entry at `i` with the next one when they touch. -/
def coalesce (h : HeapState) (i : Nat) : HeapState :=
  match h.free[i]?, h.free[i + 1]? with
  | some (addr, size), some (addr', size') =>
      if addr + size = addr' then
        let h := h.log (.freeSet i (addr, size))
        let h := { h with free := (h.free.set i (addr, size + size')).eraseIdx (i + 1) }
        h.log (.freeRemoved (i + 1) (addr', size'))
      else h
  | _, _ => h

/-- The entries below `addr`: where a freed block goes in the ordered list. -/
def freePosition (h : HeapState) (addr : Nat) : Nat :=
  (h.free.takeWhile fun entry => decide (entry.1 < addr)).length

/-- Take the block at `addr` off the live table. -/
def dropLive (h : HeapState) (addr size : Nat) : HeapState :=
  ({ h with live := h.live.erase addr }).log (.released addr size)

def insertFree (h : HeapState) (index addr size : Nat) : HeapState :=
  ({ h with free := h.free.insertIdx index (addr, size) }).log (.freeInserted index)

/-- Release a live block, coalescing with the right neighbour, then the left. -/
def release (h : HeapState) (addr : Nat) : HeapState × Except String Unit :=
  match h.live.lookup addr with
  | none => (h, .error (h.rejectReason addr))
  | some size =>
      let h := h.dropLive addr size
      let index := h.freePosition addr
      let h := (h.insertFree index addr size).coalesce index
      let h := if 0 < index then h.coalesce (index - 1) else h
      (h, .ok ())

end HeapState

/-- One call a library stub makes on the allocator. -/
inductive HeapCall
  | alloc (size : Nat)
  | release (addr : Nat)
deriving DecidableEq, Repr

def HeapCall.run (h : HeapState) : HeapCall → HeapState
  | .alloc size => (h.alloc size).1
  | .release addr => (h.release addr).1

end Playground
