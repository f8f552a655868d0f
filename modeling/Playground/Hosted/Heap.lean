/-
`malloc`, `calloc`, `realloc` and `free` as the program calls them, and what every
sequence of such calls keeps true of the allocator.
-/
import Playground.Isa.Exec
import Playground.Machine.HeapTiling

namespace Playground

namespace Hosted

open Exec

/-- Ask the allocator for a block. -/
def allocBlock (size : Word) : Exec (Option Word) := do
  let addr ← look fun m => (m.heap.alloc size.toNat).2
  call (.heap (.alloc size.toNat))
  return addr.map (BitVec.ofNat 64)

/-- The halt for a pointer `free` or `realloc` cannot take. -/
def wildPointer (addr : Word) (why name : String) : EmuError :=
  .runtimeError (name ++ "(0x" ++ hexText addr.toNat ++ "): " ++ why ++ ". " ++ name ++
    " takes exactly the pointer a malloc returned, once")

def releaseOrHalt (addr : Word) (name : String) : Exec Unit := do
  let result ← look fun m => (m.heap.release addr.toNat).2
  call (.heap (.release addr.toNat))
  match result with
  | .ok () => pure ()
  | .error why => fail (wildPointer addr why name)

def zeroBytes (addr : Word) : Nat → Exec Unit
  | 0 => pure ()
  | n + 1 => do
      writeU8 addr 0
      zeroBytes (addr + 1) n

def copyBytes (source dest : Word) : Nat → Exec Unit
  | 0 => pure ()
  | n + 1 => do
      let b ← readU8 source
      writeU8 dest b
      copyBytes (source + 1) (dest + 1) n

def answer (addr : Word) : Exec HostOutcome := do
  writeGpr 0 true addr
  return .continue

def malloc : Exec HostOutcome := do
  let size ← readGpr 0 true
  let addr ← allocBlock size
  answer (addr.getD 0)

/-- A zeroed block; a product past 64 bits has none. -/
def calloc : Exec HostOutcome := do
  let nmemb ← readGpr 0 true
  let size ← readGpr 1 true
  if nmemb.toNat * size.toNat < 2 ^ 64 then
    match ← allocBlock (nmemb * size) with
    | some addr => do
        zeroBytes addr (nmemb * size).toNat
        answer addr
    | none => answer 0
  else answer 0

/-- Resize a block: in place when the request fits, else into a new one. -/
def realloc : Exec HostOutcome := do
  let ptr ← readGpr 0 true
  let size ← readGpr 1 true
  if ptr = 0 then do
    let addr ← allocBlock size
    answer (addr.getD 0)
  else if size = 0 then do
    releaseOrHalt ptr "realloc"
    answer 0
  else
    match ← look fun m => m.heap.blockSize ptr.toNat with
    | none => do
        let why ← look fun m => m.heap.rejectReason ptr.toNat
        fail (wildPointer ptr why "realloc")
    | some oldSize =>
        if size.toNat ≤ oldSize then answer ptr
        else
          match ← allocBlock size with
          | none => answer 0
          | some newAddr => do
              copyBytes ptr newAddr oldSize
              releaseOrHalt ptr "realloc"
              answer newAddr

/-- `free` of a null pointer does nothing. -/
def free : Exec HostOutcome := do
  let addr ← readGpr 0 true
  if addr = 0 then return .continue
  else do
    releaseOrHalt addr "free"
    return .continue

/-- The library calls that reach the allocator. -/
inductive HeapStub
  | malloc | calloc | realloc | free
deriving DecidableEq, Repr

namespace HeapStub

def code : HeapStub → Exec HostOutcome
  | malloc => Hosted.malloc
  | calloc => Hosted.calloc
  | realloc => Hosted.realloc
  | free => Hosted.free

/-- The bytes a call asks for. -/
def requested (m : Machine) : HeapStub → Option Nat
  | malloc => some (m.regs.gprValue 0 true).toNat
  | calloc => some ((m.regs.gprValue 0 true).toNat * (m.regs.gprValue 1 true).toNat)
  | realloc => some (m.regs.gprValue 1 true).toNat
  | free => none

end HeapStub

/-- The tables a sequence of calls leads to, from the empty heap.  A call finds any
registers and memory. -/
inductive HeapRun : HeapTables → Prop
  | empty : HeapRun HeapState.new.toHeapTables
  | call (m : Machine) (stub : HeapStub) (h : HeapRun m.heap.toHeapTables) :
      HeapRun (stub.code.run m).1.heap.toHeapTables

/-- `addr` is an aligned live block with room for `size` bytes, and shares none with
another. -/
def Grants (t : HeapTables) (addr size : Nat) : Prop :=
  heapAlign ∣ addr ∧ ∃ s, t.live.lookup addr = some s ∧ size ≤ s ∧
    ∀ a' s', t.live.lookup a' = some s' → a' ≠ addr → Apart (addr, s) (a', s')

theorem tiled_of_heapRun {t : HeapTables} (h : HeapRun t) : t.Tiled := by
  induction h with
  | empty => exact HeapState.tiled_new
  | call m stub h ih =>
      refine Routine.run_induction (motive := fun m => m.heap.Tiled) _ ih ?_
      intro m op hm
      cases op with
      | reg call => exact hm
      | mem call => exact hm
      | heap call => exact HeapState.tiled_run hm call

theorem grants_of_live {t : HeapTables} (ht : t.Tiled) {addr s size : Nat}
    (hlive : t.live.lookup addr = some s) (hsize : size ≤ s) : Grants t addr size := by
  refine ⟨(ht.live_aligned addr s hlive).2.1, s, hlive, hsize, ?_⟩
  intro a' s' hs' hne
  exact ht.live_live addr s a' s' hlive hs' hne.symm

section Runs

variable {m m' : Machine}

theorem run_zeroBytes (addr : Word) (n : Nat) (m : Machine) :
    ((zeroBytes addr n).run m).1.heap = m.heap := by
  induction n generalizing addr m with
  | zero => rfl
  | succ n ih =>
      rw [zeroBytes, run_bind, writeU8, run_store]
      cases (m.mem.writeU8 addr 0).2 with
      | ok => exact ih _ _
      | error e => rfl

theorem run_copyBytes (source dest : Word) (n : Nat) (m : Machine) :
    ((copyBytes source dest n).run m).1.heap = m.heap := by
  induction n generalizing source dest m with
  | zero => rfl
  | succ n ih =>
      rw [copyBytes, run_bind, readU8, run_attempt]
      cases m.mem.readU8 source with
      | error e => rfl
      | ok b =>
          simp only
          rw [run_bind, writeU8, run_store]
          cases (m.mem.writeU8 dest b).2 with
          | ok => exact ih _ _ _
          | error e => rfl

theorem run_allocBlock (size : Word) (m : Machine) :
    (allocBlock size).run m = ({ m with heap := (m.heap.alloc size.toNat).1 },
      .ok ((m.heap.alloc size.toNat).2.map (BitVec.ofNat 64))) := rfl

/-- A block an allocation answers with was not live, and is now. -/
theorem alloc_live {h : HeapState} (ht : h.Tiled) {size addr : Nat}
    (ha : (h.alloc size).2 = some addr) :
    addr < 2 ^ 64 ∧ addr ∉ h.live ∧
      ∃ s, (h.alloc size).1.live.lookup addr = some s ∧ size ≤ s := by
  have hstep := HeapState.allocStep_alloc h size
  have hsize := (roundUp_spec size).1
  have hlimit : heapLimit < 2 ^ 64 := by decide
  have hnext := ht.next_le
  rw [ha] at hstep
  generalize (h.alloc size).1.toHeapTables = t at hstep ⊢
  cases hstep with
  | reused before after addr block hfree hfits =>
      have hmem : (addr, block) ∈ h.free := by rw [hfree]; simp
      have hbound := (ht.free_bound _ hmem).2
      simp only at hbound
      exact ⟨by omega, ht.free_not_live hmem, _, Finmap.lookup_insert _, hsize⟩
  | grown hroom =>
      exact ⟨by omega, ht.next_not_live, _, Finmap.lookup_insert _, hsize⟩

theorem gprValue_writeGpr (r : RegisterFile) (value : Word) :
    (r.writeGpr 0 true value).gprValue 0 true = value := by
  simp [RegisterFile.writeGpr, RegisterFile.gprValue]

theorem gprValue_answer (addr : Word) (m : Machine) :
    (((answer addr).run m).1).regs.gprValue 0 true = addr :=
  gprValue_writeGpr m.regs addr

theorem heap_answer (addr : Word) (m : Machine) : ((answer addr).run m).1.heap = m.heap := rfl

theorem gprValue_run_readGpr (m : Machine) (i j : Nat) :
    (MachineCall.run m (.reg (.readGpr i true))).regs.gprValue j true =
      m.regs.gprValue j true := by
  show (m.regs.readGpr i true).1.gprValue j true = _
  unfold RegisterFile.readGpr
  split <;> rfl

/-- What a finished call gave is a good block, unless it gave none. -/
def GoodAnswer (size : Nat) (r : Machine × Except EmuError HostOutcome) : Prop :=
  r.2 = .ok .continue → r.1.regs.gprValue 0 true ≠ 0 →
    Grants r.1.heap.toHeapTables (r.1.regs.gprValue 0 true).toNat size

theorem goodAnswer_zero (size : Nat) (m : Machine) : GoodAnswer size ((answer 0).run m) := by
  intro _ hne
  exact absurd (gprValue_answer 0 m) hne

theorem goodAnswer_error {e : EmuError} (size : Nat) (m : Machine) :
    GoodAnswer size (m, .error e) := by
  intro h
  cases h

/-- Code that ends before it answers gives no block. -/
theorem goodAnswer_bind {size : Nat} {x : Exec Unit} {next : Unit → Exec HostOutcome}
    (hnext : ∀ m', m'.heap = (x.run m).1.heap → GoodAnswer size ((next ()).run m')) :
    GoodAnswer size ((x >>= next).run m) := by
  rw [run_bind]
  rcases hx : x.run m with ⟨m', result⟩
  rw [hx] at hnext
  cases result with
  | error e => exact goodAnswer_error size m'
  | ok => exact hnext m' rfl

theorem goodAnswer_live {size s : Nat} {addr : Word} (ht : m.heap.Tiled)
    (hlive : m.heap.live.lookup addr.toNat = some s) (hsize : size ≤ s) :
    GoodAnswer size ((answer addr).run m) := by
  intro _ _
  rw [gprValue_answer, heap_answer]
  exact grants_of_live ht hlive hsize

/-- Answering with whatever the allocator gave. -/
theorem goodAnswer_alloc (size : Word) (ht : m.heap.Tiled) :
    GoodAnswer size.toNat
      ((answer (((m.heap.alloc size.toNat).2.map (BitVec.ofNat 64)).getD 0)).run
        { m with heap := (m.heap.alloc size.toNat).1 }) := by
  cases ha : (m.heap.alloc size.toNat).2 with
  | none => exact goodAnswer_zero _ _
  | some addr =>
      obtain ⟨hlt, -, s, hlive, hsize⟩ := alloc_live ht ha
      have hnat : (BitVec.ofNat 64 addr).toNat = addr := by
        rw [BitVec.toNat_ofNat, Nat.mod_eq_of_lt hlt]
      refine goodAnswer_live (HeapState.tiled_run ht (.alloc size.toNat)) (s := s) ?_ hsize
      rw [Option.map_some, Option.getD_some, hnat]
      exact hlive

theorem goodAnswer_malloc (ht : m.heap.Tiled) :
    GoodAnswer (m.regs.gprValue 0 true).toNat (malloc.run m) := by
  rw [malloc, run_bind, run_readGpr]
  simp only
  rw [run_bind, run_allocBlock]
  exact goodAnswer_alloc (m := MachineCall.run m (.reg (.readGpr 0 true))) _ ht

theorem goodAnswer_calloc (ht : m.heap.Tiled) :
    GoodAnswer ((m.regs.gprValue 0 true).toNat * (m.regs.gprValue 1 true).toNat)
      (calloc.run m) := by
  rw [calloc, run_bind, run_readGpr]
  simp only
  rw [run_bind, run_readGpr]
  simp only [gprValue_run_readGpr]
  generalize hm : MachineCall.run (MachineCall.run m _) _ = m₁
  have hheap : m₁.heap = m.heap := by rw [← hm]; rfl
  generalize m.regs.gprValue 0 true = nmemb
  generalize m.regs.gprValue 1 true = size
  by_cases hfits : nmemb.toNat * size.toNat < 2 ^ 64
  · have htotal : (nmemb * size).toNat = nmemb.toNat * size.toNat := by
      rw [BitVec.toNat_mul, Nat.mod_eq_of_lt hfits]
    rw [if_pos hfits, run_bind, run_allocBlock, ← htotal, hheap]
    cases ha : (m.heap.alloc (nmemb * size).toNat).2 with
    | none => exact goodAnswer_zero _ _
    | some addr =>
        obtain ⟨hlt, -, s, hlive, hsize⟩ := alloc_live ht ha
        have hnat : (BitVec.ofNat 64 addr).toNat = addr := by
          rw [BitVec.toNat_ofNat, Nat.mod_eq_of_lt hlt]
        simp only [Option.map_some]
        refine goodAnswer_bind fun m₂ hm₂ => ?_
        rw [run_zeroBytes] at hm₂
        refine goodAnswer_live (s := s) ?_ ?_ hsize
        · rw [hm₂]
          exact HeapState.tiled_run ht (.alloc _)
        · rw [hm₂, hnat]
          exact hlive
  · rw [if_neg hfits]
    exact goodAnswer_zero _ _

theorem run_releaseOrHalt (addr : Word) (name : String) (m : Machine) :
    ((releaseOrHalt addr name).run m).1 = { m with heap := (m.heap.release addr.toNat).1 } := by
  rw [releaseOrHalt, run_bind, run_look]
  simp only
  rw [run_bind, run_call]
  simp only
  cases (m.heap.release addr.toNat).2 <;> rfl

/-- A release takes no other block off the live table. -/
theorem lookup_release {h : HeapState} (ht : h.Tiled) {addr other : Nat} (hne : other ≠ addr) :
    (h.release addr).1.live.lookup other = h.live.lookup other := by
  have hstep := HeapState.releaseStep_release ht.toWellFormed addr
  generalize (h.release addr).1.toHeapTables = t at hstep ⊢
  cases hstep with
  | unknown => rfl
  | joined size before after joined hlive hfree hordered hjoined =>
      exact Finmap.lookup_erase_ne hne

/-- The part of `realloc` that moves a block. -/
theorem goodAnswer_move (ht : m.heap.Tiled) {ptr size : Word} {oldSize : Nat}
    (hptr : m.heap.live.lookup ptr.toNat = some oldSize) :
    GoodAnswer size.toNat ((do
      match ← allocBlock size with
      | none => answer 0
      | some newAddr => do
          copyBytes ptr newAddr oldSize
          releaseOrHalt ptr "realloc"
          answer newAddr : Exec HostOutcome).run m) := by
  rw [run_bind, run_allocBlock]
  cases ha : (m.heap.alloc size.toNat).2 with
  | none => exact goodAnswer_zero _ _
  | some addr =>
      obtain ⟨hlt, hnew, s, hlive, hsize⟩ := alloc_live ht ha
      have hnat : (BitVec.ofNat 64 addr).toNat = addr := by
        rw [BitVec.toNat_ofNat, Nat.mod_eq_of_lt hlt]
      have hne : addr ≠ ptr.toNat := by
        rintro rfl
        exact hnew (Finmap.mem_of_lookup_eq_some hptr)
      have htiled := HeapState.tiled_run ht (.alloc size.toNat)
      simp only [Option.map_some]
      refine goodAnswer_bind fun m₁ hm₁ => ?_
      rw [run_copyBytes] at hm₁
      refine goodAnswer_bind fun m₂ hm₂ => ?_
      rw [run_releaseOrHalt, hm₁] at hm₂
      refine goodAnswer_live (s := s) ?_ ?_ hsize
      · rw [hm₂]
        exact HeapState.tiled_run htiled (.release ptr.toNat)
      · rw [hm₂, hnat]
        exact (lookup_release htiled hne).trans hlive

theorem goodAnswer_realloc (ht : m.heap.Tiled) :
    GoodAnswer (m.regs.gprValue 1 true).toNat (realloc.run m) := by
  rw [realloc, run_bind, run_readGpr]
  simp only
  rw [run_bind, run_readGpr]
  simp only [gprValue_run_readGpr]
  generalize hm : MachineCall.run (MachineCall.run m _) _ = m₁
  have hheap : m₁.heap = m.heap := by rw [← hm]; rfl
  rw [← hheap] at ht
  clear hm hheap
  generalize m.regs.gprValue 0 true = ptr
  generalize m.regs.gprValue 1 true = size
  split
  · exact goodAnswer_alloc size ht
  · split
    · exact goodAnswer_bind fun m₂ _ => goodAnswer_zero _ m₂
    · rw [run_bind, run_look]
      simp only
      cases hptr : m₁.heap.blockSize ptr.toNat with
      | none => exact goodAnswer_error _ _
      | some oldSize =>
          simp only
          split
          · next hfits => exact goodAnswer_live ht hptr hfits
          · exact goodAnswer_move ht hptr

end Runs

/-- Whatever was called before, live and free blocks tile the heap up to its frontier, and
a call that hands out a block hands out a good one. -/
theorem heapRun_tiled {m : Machine} (h : HeapRun m.heap.toHeapTables) :
    m.heap.Tiled ∧ ∀ (stub : HeapStub) (size : Nat), stub.requested m = some size →
      GoodAnswer size (stub.code.run m) := by
  have ht := tiled_of_heapRun h
  refine ⟨ht, ?_⟩
  intro stub size hsize
  cases stub with
  | malloc =>
      obtain rfl := Option.some.inj hsize
      exact goodAnswer_malloc ht
  | calloc =>
      obtain rfl := Option.some.inj hsize
      exact goodAnswer_calloc ht
  | realloc =>
      obtain rfl := Option.some.inj hsize
      exact goodAnswer_realloc ht
  | free => cases hsize

/-- The machine after a call of a stub with these arguments. -/
def callHeap (m : Machine) (asked : HeapStub × Word × Word) : Machine :=
  let (stub, x0, x1) := asked
  (stub.code.run { m with regs := (m.regs.writeGpr 0 true x0).writeGpr 1 true x1 }).1

theorem heapRun_callHeap (calls : List (HeapStub × Word × Word)) {m : Machine}
    (h : HeapRun m.heap.toHeapTables) :
    HeapRun (calls.foldl callHeap m).heap.toHeapTables := by
  induction calls generalizing m with
  | nil => exact h
  | cons asked calls ih =>
      exact ih (HeapRun.call
        { m with regs := (m.regs.writeGpr 0 true asked.2.1).writeGpr 1 true asked.2.2 } asked.1 h)

/-- Three blocks, of which the first two are freed and join, and a smaller one that splits
what they leave; then `calloc(4, 16)`. -/
def mergedHeap : Machine :=
  let m := [(HeapStub.malloc, (100 : Word), (0 : Word)), (.malloc, 32, 0), (.malloc, 64, 0),
    (.free, 0x900070, 0), (.free, 0x900000, 0), (.malloc, 48, 0)].foldl callHeap
      ⟨RegisterFile.new, Memory.new, HeapState.new⟩
  { m with regs := (m.regs.writeGpr 0 true 4).writeGpr 1 true 16 }

theorem heapRun_tiled_merged :
    HeapRun mergedHeap.heap.toHeapTables ∧ mergedHeap.heap.free = [(0x900030, 96)] ∧
      mergedHeap.heap.Tiled ∧
      Grants (calloc.run mergedHeap).1.heap.toHeapTables 0x900030 64 := by
  have hrun : HeapRun mergedHeap.heap.toHeapTables := heapRun_callHeap _ .empty
  obtain ⟨htiled, hgood⟩ := heapRun_tiled hrun
  have hx0 : (calloc.run mergedHeap).1.regs.gprValue 0 true = 0x900030 ∧
      (calloc.run mergedHeap).2 = .ok .continue := by
    decide +kernel
  have hgrants := hgood .calloc 64 (by decide +kernel) hx0.2
    (by rw [HeapStub.code, hx0.1]; decide)
  rw [HeapStub.code, hx0.1] at hgrants
  exact ⟨hrun, by decide +kernel, htiled, hgrants⟩

end Hosted

end Playground
