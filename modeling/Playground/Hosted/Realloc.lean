/-
`realloc` and the bytes of its block.  The allocator knows nothing of the pages under a
block, so the copy into a larger one can meet a page that was never mapped.
-/
import Playground.Hosted.DoubleFree
import Playground.Machine.Bytewise

namespace Playground

namespace Memory

theorem peekAll_congr {p p' : Pages} {addr : Word} {n : Nat}
    (h : ∀ i < n, peek p (addr + BitVec.ofNat 64 i) = peek p' (addr + BitVec.ofNat 64 i)) :
    peekAll p addr n = peekAll p' addr n := by
  induction n generalizing addr with
  | zero => rfl
  | succ n ih =>
      have hhead := h 0 (Nat.succ_pos n)
      rw [BitVec.add_zero] at hhead
      have htail : peekAll p (addr + 1) n = peekAll p' (addr + 1) n := by
        apply ih
        intro i hi
        rw [add_one_add_ofNat]
        exact h (i + 1) (by omega)
      rw [peekAll, peekAll, hhead, htail]

theorem getElem?_peekAll {p : Pages} {addr : Word} {n i : Nat} (hi : i < n) :
    (peekAll p addr n)[i]? = some (peek p (addr + BitVec.ofNat 64 i)) := by
  induction n generalizing addr i with
  | zero => omega
  | succ n ih =>
      cases i with
      | zero => simp [peekAll]
      | succ i =>
          rw [peekAll, List.getElem?_cons_succ, ih (by omega), add_one_add_ofNat]

section Bytes

variable {m : Memory} {addr : Word} {byte : Byte}

/-- A byte is written if its page is mapped or there is room for another. -/
theorem writeU8_ok_iff (m : Memory) (addr : Word) (byte : Byte) :
    (m.writeU8 addr byte).2 = .ok () ↔
      pageBase addr ∈ m.pages ∨ m.pages.keys.card < maxMappedPages := by
  unfold writeU8 writeInPage mappedPageCount
  by_cases hmem : pageBase addr ∈ m.pages
  · simp [hmem]
  · by_cases hroom : maxMappedPages ≤ m.pages.keys.card
    · simp [hmem, hroom]
    · simp [hmem, hroom, Nat.lt_of_not_le hroom]

theorem wrote_writeU8 (h : (m.writeU8 addr byte).2 = .ok ()) :
    Wrote m addr [byte] (m.writeU8 addr byte).1 := by
  have hfits : (pageOffset addr).toNat + [byte].length ≤ 4096 := (pageOffset addr).isLt
  unfold writeU8 at h ⊢
  rcases m.writeInPage_cases addr [byte] hfits with ⟨hrefused, -⟩ | ⟨m', hwrite, hwrote⟩
  · rw [hrefused] at h
    cases h
  · rw [hwrite]
    exact hwrote

theorem keys_writeU8 (h : (m.writeU8 addr byte).2 = .ok ()) :
    (m.writeU8 addr byte).1.pages.keys = insert (pageBase addr) m.pages.keys := by
  obtain ⟨p, hp, hpages, -⟩ := (wrote_writeU8 h).pages
  rw [hpages, keys_pokeAll]
  rcases hp with ⟨hmem, rfl⟩ | ⟨-, rfl⟩
  · rw [Finset.insert_eq_of_mem (Finmap.mem_keys.mpr hmem)]
  · ext base
    rw [Finmap.mem_keys, Finmap.mem_insert, Finset.mem_insert, Finmap.mem_keys]

theorem written_writeU8 (h : (m.writeU8 addr byte).2 = .ok ()) :
    Written m addr [byte] (m.writeU8 addr byte).1 := by
  have hfits : (pageOffset addr).toNat + [byte].length ≤ 4096 := (pageOffset addr).isLt
  exact (wrote_writeU8 h).written hfits

end Bytes

/-- The pages mapped once the first `i` bytes of a copy are at `dest`. -/
def mappedAfter (m : Memory) (dest : Word) (i : Nat) : Finset Word :=
  m.pages.keys ∪ (Finset.range i).image fun j => pageBase (dest + BitVec.ofNat 64 j)

/-- Byte `i` of a copy can be read and then written: what it needs is mapped by then, or is
in a span that reads as zeros, or there is room to map it. -/
def CanCopy (m : Memory) (source dest : Word) (i : Nat) : Prop :=
  (pageBase (source + BitVec.ofNat 64 i) ∈ m.mappedAfter dest i ∨
    m.inZeroFill (source + BitVec.ofNat 64 i) = true) ∧
  (pageBase (dest + BitVec.ofNat 64 i) ∈ m.mappedAfter dest i ∨
    (m.mappedAfter dest i).card < maxMappedPages)

theorem mappedAfter_zero (m : Memory) (dest : Word) : m.mappedAfter dest 0 = m.pages.keys := by
  simp [mappedAfter]

theorem mappedAfter_succ {m m' : Memory} {dest : Word}
    (hkeys : m'.pages.keys = insert (pageBase dest) m.pages.keys) (i : Nat) :
    m'.mappedAfter (dest + 1) i = m.mappedAfter dest (i + 1) := by
  unfold mappedAfter
  rw [hkeys]
  ext base
  simp only [Finset.mem_union, Finset.mem_insert, Finset.mem_image, Finset.mem_range]
  constructor
  · rintro ((rfl | hmem) | ⟨j, hj, rfl⟩)
    · exact .inr ⟨0, Nat.succ_pos i, by rw [BitVec.add_zero]⟩
    · exact .inl hmem
    · exact .inr ⟨j + 1, by omega, by rw [add_one_add_ofNat]⟩
  · rintro (hmem | ⟨j, hj, rfl⟩)
    · exact .inl (.inr hmem)
    · cases j with
      | zero => exact .inl (.inl (by rw [BitVec.add_zero]))
      | succ j => exact .inr ⟨j, by omega, by rw [add_one_add_ofNat]⟩

theorem canCopy_succ {m m' : Memory} {dest : Word}
    (hkeys : m'.pages.keys = insert (pageBase dest) m.pages.keys)
    (hfill : m'.zeroFill = m.zeroFill) (source : Word) (i : Nat) :
    m'.CanCopy (source + 1) (dest + 1) i ↔ m.CanCopy source dest (i + 1) := by
  unfold CanCopy inZeroFill
  rw [mappedAfter_succ hkeys, hfill, add_one_add_ofNat, add_one_add_ofNat]

theorem canCopy_zero (m : Memory) (source dest : Word) :
    m.CanCopy source dest 0 ↔ m.isMapped source = true ∧
      (pageBase dest ∈ m.pages ∨ m.pages.keys.card < maxMappedPages) := by
  unfold CanCopy
  rw [mappedAfter_zero, isMapped_iff, BitVec.add_zero, BitVec.add_zero, Finmap.mem_keys,
    Finmap.mem_keys]

end Memory

namespace Hosted

open Exec Memory

variable {m : Machine} {s : Nat}

/-- The copy goes on as long as each byte can be read and written. -/
theorem copyBytes_ok_iff (source dest : Word) (n : Nat) (m : Machine) :
    ((copyBytes source dest n).run m).2 = .ok () ↔
      ∀ i < n, m.mem.CanCopy source dest i := by
  induction n generalizing source dest m with
  | zero =>
      constructor
      · intro _ i hi
        omega
      · intro _
        rfl
  | succ n ih =>
      rw [copyBytes, run_bind, Exec.readU8, run_attempt]
      rcases hread : m.mem.readU8 source with e | byte
      · constructor
        · intro h
          cases h
        · intro h
          have hmapped := ((canCopy_zero m.mem source dest).mp (h 0 (Nat.succ_pos n))).1
          have hbyte := (m.mem.readU8_eq_ok_iff source _).mpr ⟨hmapped, rfl⟩
          rw [hread] at hbyte
          cases hbyte
      · have hmapped := ((m.mem.readU8_eq_ok_iff source byte).mp hread).1
        simp only
        rw [run_bind, Exec.writeU8, run_store]
        rcases hwrite : (m.mem.writeU8 dest byte).2 with e | ⟨⟩
        · constructor
          · intro h
            cases h
          · intro h
            have hroom := ((canCopy_zero m.mem source dest).mp (h 0 (Nat.succ_pos n))).2
            rw [← writeU8_ok_iff m.mem dest byte, hwrite] at hroom
            cases hroom
        · have hroom := (writeU8_ok_iff m.mem dest byte).mp hwrite
          have hstep := canCopy_succ (keys_writeU8 hwrite) (wrote_writeU8 hwrite).zeroFill source
          simp only
          rw [ih]
          constructor
          · intro h i hi
            cases i with
            | zero => exact (canCopy_zero m.mem source dest).mpr ⟨hmapped, hroom⟩
            | succ i => exact (hstep i).mp (h i (by omega))
          · intro h i hi
            exact (hstep i).mpr (h (i + 1) (by omega))

/-- A copy that goes through, and overwrites no byte it has still to read, leaves the
source's bytes at the destination, and no others changed. -/
theorem written_copyBytes_ahead {source dest : Word} {n : Nat} (hn : n ≤ 2 ^ 64)
    (hahead : ∀ i < n, ∀ j < i, source + BitVec.ofNat 64 i ≠ dest + BitVec.ofNat 64 j)
    (h : ((copyBytes source dest n).run m).2 = .ok ()) :
    Written m.mem dest (peekAll m.mem.pages source n)
      ((copyBytes source dest n).run m).1.mem := by
  induction n generalizing source dest m with
  | zero => exact ⟨fun a => rfl, fun i hi => absurd hi (Nat.not_lt_zero i), fun _ => id, rfl⟩
  | succ n ih =>
      rw [copyBytes, run_bind, Exec.readU8, run_attempt] at h ⊢
      rcases hread : m.mem.readU8 source with e | byte
      · rw [hread] at h
        cases h
      · obtain ⟨-, hbyte⟩ := (m.mem.readU8_eq_ok_iff source byte).mp hread
        simp only [hread] at h ⊢
        rw [run_bind, Exec.writeU8, run_store] at h ⊢
        rcases hwrite : (m.mem.writeU8 dest byte).2 with e | ⟨⟩
        · rw [hwrite] at h
          cases h
        · simp only [hwrite] at h ⊢
          have hfirst := written_writeU8 hwrite
          have hahead' : ∀ i < n, ∀ j < i,
              source + 1 + BitVec.ofNat 64 i ≠ dest + 1 + BitVec.ofNat 64 j := by
            intro i hi j hj
            rw [add_one_add_ofNat, add_one_add_ofNat]
            exact hahead (i + 1) (by omega) (j + 1) (by omega)
          have hrest := ih (by omega) hahead' h
          have hsame : peekAll (m.mem.writeU8 dest byte).1.pages (source + 1) n =
              peekAll m.mem.pages (source + 1) n := by
            apply peekAll_congr
            intro i hi
            rw [add_one_add_ofNat, hfirst.changed, List.getD_eq_default]
            have hne := hahead (i + 1) (by omega) 0 (Nat.succ_pos i)
            rw [BitVec.add_zero] at hne
            have hsub : source + BitVec.ofNat 64 (i + 1) - dest ≠ 0 := by
              intro hzero
              exact hne (sub_eq_zero.mp hzero)
            exact Nat.pos_iff_ne_zero.mpr fun hzero => hsub (BitVec.eq_of_toNat_eq hzero)
          have hlen : (peekAll m.mem.pages (source + 1) n).length < 2 ^ 64 := by
            rw [length_peekAll]
            omega
          have hmem : (MachineCall.run m (.mem (.writeU8 dest byte))).mem =
              (m.mem.writeU8 dest byte).1 := rfl
          rw [hmem, hsame] at hrest
          rw [peekAll, ← hbyte]
          exact hfirst.cons hlen hrest

/-- The source and the destination share no byte. -/
theorem written_copyBytes {source dest : Word} {n : Nat} (hn : n ≤ 2 ^ 64)
    (hapart : ∀ i < n, ∀ j < n, source + BitVec.ofNat 64 i ≠ dest + BitVec.ofNat 64 j)
    (h : ((copyBytes source dest n).run m).2 = .ok ()) :
    Written m.mem dest (peekAll m.mem.pages source n)
      ((copyBytes source dest n).run m).1.mem :=
  written_copyBytes_ahead hn (fun i hi j hj => hapart i hi j (hj.trans hi)) h

/-- A byte that loads before at one address loads the same afterwards at another. -/
def SameLoad (mem mem' : Memory) (a a' : Word) : Prop :=
  ∀ byte, mem.readU8 a = .ok byte → mem'.readU8 a' = .ok byte

/-- What resizing a block of `s` bytes is to do: it never halts; the bytes of the block it
answers with load, as far as both reach, and where the old ones loaded they load the same; the
old block is gone unless it is the answer, and the others stay as they are; and where there is
none to answer with, nothing happened. -/
structure Resizes (m m' : Machine) (s : Nat) : Prop where
  loads : m'.regs.gprValue 0 true ≠ 0 → ∀ i < min s (m.regs.gprValue 1 true).toNat,
    ∃ byte, m'.mem.readU8 (m'.regs.gprValue 0 true + BitVec.ofNat 64 i) = .ok byte
  data : m'.regs.gprValue 0 true ≠ 0 → ∀ i < min s (m.regs.gprValue 1 true).toNat,
    SameLoad m.mem m'.mem (m.regs.gprValue 0 true + BitVec.ofNat 64 i)
      (m'.regs.gprValue 0 true + BitVec.ofNat 64 i)
  released : m'.regs.gprValue 0 true ≠ 0 →
    m'.regs.gprValue 0 true ≠ m.regs.gprValue 0 true →
      (m.regs.gprValue 0 true).toNat ∉ m'.heap.live
  others : m'.regs.gprValue 0 true ≠ 0 → ∀ a s', a ≠ (m.regs.gprValue 0 true).toNat →
    m.heap.live.lookup a = some s' → m'.heap.live.lookup a = some s' ∧
      ∀ i < s', SameLoad m.mem m'.mem (BitVec.ofNat 64 (a + i)) (BitVec.ofNat 64 (a + i))
  refused : m'.regs.gprValue 0 true = 0 →
    m'.heap.toHeapTables = m.heap.toHeapTables ∧ m'.mem = m.mem

/-- `realloc` resizes the block of `s` bytes at its pointer. -/
def ReallocBehaves (m : Machine) (s : Nat) : Prop :=
  ∃ m', realloc.run m = (m', .ok .continue) ∧ Resizes m m' s

/-- One situation in which it does not: the request fits the block, and one of its first bytes
is on no page and in no span that reads as zeros. -/
def BlockFaults (m : Machine) (s : Nat) : Prop :=
  (m.regs.gprValue 1 true).toNat ≤ s ∧ ∃ i < (m.regs.gprValue 1 true).toNat,
    m.mem.isMapped (m.regs.gprValue 0 true + BitVec.ofNat 64 i) = false

/-- The other: the request needs a larger block, the allocator has one, and some byte of the
old block cannot be carried over. -/
def CopyStops (m : Machine) (s : Nat) : Prop :=
  s < (m.regs.gprValue 1 true).toNat ∧
    ∃ addr, (m.heap.alloc (m.regs.gprValue 1 true).toNat).2 = some addr ∧
      ∃ i < s, ¬ m.mem.CanCopy (m.regs.gprValue 0 true) (BitVec.ofNat 64 addr) i

/-- `realloc` once it has read its arguments. -/
def resize (ptr size : Word) : Exec HostOutcome :=
  if ptr = 0 then do
    let addr ← allocBlock size
    answer (addr.getD 0)
  else if size = 0 then do
    releaseOrHalt ptr "realloc"
    answer 0
  else do
    match ← look fun m => m.heap.blockSize ptr.toNat with
    | none => do
        let why ← look fun m => m.heap.rejectReason ptr.toNat
        fail (wildPointer ptr why "realloc")
    | some oldSize =>
        if size.toNat ≤ oldSize then answer ptr
        else
          match ← allocBlock size with
          | none => answer 0
          | some newAddr => do
              copyBytes ptr newAddr oldSize
              releaseOrHalt ptr "realloc"
              answer newAddr

/-- Reading the arguments leaves memory, the heap and the arguments. -/
theorem run_realloc (m : Machine) :
    ∃ regs, realloc.run m =
      (resize (m.regs.gprValue 0 true) (m.regs.gprValue 1 true)).run { m with regs := regs } := by
  refine ⟨(MachineCall.run (MachineCall.run m (.reg (.readGpr 0 true)))
    (.reg (.readGpr 1 true))).regs, ?_⟩
  rw [realloc, run_bind, run_readGpr]
  simp only
  rw [run_bind, run_readGpr]
  simp only [gprValue_run_readGpr]
  rfl

section Cases

variable {m : Machine} (regs : RegisterFile) (s : Nat)

/-- The request fits the block, so the block stays, and it loads if its bytes do. -/
theorem resizes_inPlace (hptr : m.regs.gprValue 0 true ≠ 0)
    (hfits : (m.regs.gprValue 1 true).toNat ≤ s) :
    Resizes m ((answer (m.regs.gprValue 0 true)).run { m with regs := regs }).1 s ↔
      ¬ BlockFaults m s := by
  have hresult := gprValue_answer (m.regs.gprValue 0 true) { m with regs := regs }
  constructor
  · rintro hresizes ⟨-, i, hi, hfaults⟩
    obtain ⟨byte, hbyte⟩ := hresizes.loads (by rwa [hresult]) i (by omega)
    rw [hresult] at hbyte
    have hmapped := ((m.mem.readU8_eq_ok_iff _ byte).mp hbyte).1
    rw [hfaults] at hmapped
    cases hmapped
  intro hloads
  constructor
  · intro _ i hi
    rw [hresult]
    have hmapped : m.mem.isMapped (m.regs.gprValue 0 true + BitVec.ofNat 64 i) = true := by
      by_contra hfaults
      exact hloads ⟨hfits, i, by omega, by simpa using hfaults⟩
    exact ⟨_, (m.mem.readU8_eq_ok_iff _ _).mpr ⟨hmapped, rfl⟩⟩
  · intro _ i _ byte
    rw [hresult]
    exact id
  · intro _ hne
    exact absurd hresult hne
  · intro _ a s' _ hlive
    exact ⟨hlive, fun i _ byte => id⟩
  · intro hzero
    rw [hresult] at hzero
    exact absurd hzero hptr

/-- There is no block to answer with. -/
theorem resizes_refused {h : HeapState} (htables : h.toHeapTables = m.heap.toHeapTables) :
    Resizes m ((answer 0).run { m with regs := regs, heap := h }).1 s := by
  have hresult := gprValue_answer 0 { m with regs := regs, heap := h }
  constructor
  · intro hne
    exact absurd hresult hne
  · intro hne
    exact absurd hresult hne
  · intro hne
    exact absurd hresult hne
  · intro hne
    exact absurd hresult hne
  · intro _
    exact ⟨htables, rfl⟩

end Cases

theorem tables_of_refused {h : HeapState} {size : Nat} (hnone : (h.alloc size).2 = none) :
    (h.alloc size).1.toHeapTables = h.toHeapTables := by
  have hstep := HeapState.allocStep_alloc h size
  rw [hnone] at hstep
  generalize (h.alloc size).1.toHeapTables = t at hstep ⊢
  cases hstep
  rfl

/-- A block's bytes are distinct addresses. -/
theorem toNat_block {t : HeapTables} (ht : t.Tiled) {addr : Nat}
    (hlive : t.live.lookup addr = some s) {i : Nat} (hi : i < s) :
    (BitVec.ofNat 64 (addr + i)).toNat = addr + i := by
  have hbound := (ht.live_bound addr s hlive).2
  have hnext := ht.next_le
  have hlimit : heapLimit < 2 ^ 64 := by decide
  rw [BitVec.toNat_ofNat, Nat.mod_eq_of_lt (by omega)]

/-- No byte of one block is a byte of another. -/
theorem block_apart {t : HeapTables} (ht : t.Tiled) {a a' s' : Nat}
    (hlive : t.live.lookup a = some s) (hlive' : t.live.lookup a' = some s') (hne : a ≠ a')
    {i j : Nat} (hi : i < s) (hj : j < s') :
    BitVec.ofNat 64 (a + i) ≠ BitVec.ofNat 64 (a' + j) := by
  intro heq
  have hvalue := congrArg BitVec.toNat heq
  rw [toNat_block ht hlive hi, toNat_block ht hlive' hj] at hvalue
  have hapart := ht.live_live a s a' s' hlive hlive' hne
  unfold Apart at hapart
  omega

theorem add_ofNat_eq (addr : Word) (i : Nat) :
    addr + BitVec.ofNat 64 i = BitVec.ofNat 64 (addr.toNat + i) := by
  rw [BitVec.ofNat_add, BitVec.ofNat_toNat, BitVec.setWidth_eq]

/-- What an allocation that answers with a block does to the live table. -/
theorem live_alloc {h : HeapState} {size addr : Nat} (ha : (h.alloc size).2 = some addr) :
    (h.alloc size).1.live = h.live.insert addr (roundUp size) := by
  have hstep := HeapState.allocStep_alloc h size
  rw [ha] at hstep
  generalize (h.alloc size).1.toHeapTables = t at hstep ⊢
  cases hstep <;> rfl

/-- An address is past a run of bytes if it is none of them. -/
theorem length_le_sub {a dest : Word} {n : Nat}
    (h : ∀ j < n, a ≠ dest + BitVec.ofNat 64 j) : n ≤ (a - dest).toNat := by
  by_contra hlt
  apply h (a - dest).toNat (Nat.lt_of_not_le hlt)
  rw [BitVec.ofNat_toNat, BitVec.setWidth_eq, add_sub_cancel]

section Move

variable {m m' : Machine} {s addr : Nat}

/-- The bytes are in the new block, and the old one is gone. -/
theorem resizes_moved (ht : m.heap.Tiled)
    (hlive : m.heap.live.lookup (m.regs.gprValue 0 true).toNat = some s)
    (hgrows : s < (m.regs.gprValue 1 true).toNat)
    (ha : (m.heap.alloc (m.regs.gprValue 1 true).toNat).2 = some addr)
    (hwritten : Written m.mem (BitVec.ofNat 64 addr)
      (peekAll m.mem.pages (m.regs.gprValue 0 true) s) m'.mem)
    (hheap : m'.heap = ((m.heap.alloc (m.regs.gprValue 1 true).toNat).1.release
      (m.regs.gprValue 0 true).toNat).1)
    (hresult : m'.regs.gprValue 0 true = BitVec.ofNat 64 addr) : Resizes m m' s := by
  have hlive₁ := live_alloc ha
  obtain ⟨hlt, hnew, size, hsize, hfits⟩ := alloc_live ht ha
  have ht₁ : (m.heap.alloc (m.regs.gprValue 1 true).toNat).1.Tiled :=
    HeapState.tiled_run ht (.alloc (m.regs.gprValue 1 true).toNat)
  have hkept : ∀ a s', m.heap.live.lookup a = some s' →
      (m.heap.alloc (m.regs.gprValue 1 true).toNat).1.live.lookup a = some s' := by
    intro a s' h
    have hne : a ≠ addr := by
      rintro rfl
      exact hnew (Finmap.mem_of_lookup_eq_some h)
    rw [hlive₁, Finmap.lookup_insert_of_ne _ hne]
    exact h
  have hlen : (peekAll m.mem.pages (m.regs.gprValue 0 true) s).length = s := length_peekAll _ _ _
  have hlimit : s ≤ 2 ^ 64 := by
    have hsizeLt := (m.regs.gprValue 1 true).isLt
    omega
  have hholds := hwritten.holds (by rw [hlen]; exact hlimit)
  constructor
  · intro _ i hi
    rw [hresult]
    exact ⟨_, hholds i _ (getElem?_peekAll (by omega))⟩
  · intro _ i hi byte hbyte
    rw [hresult, ((m.mem.readU8_eq_ok_iff _ byte).mp hbyte).2]
    exact hholds i _ (getElem?_peekAll (by omega))
  · intro _ _ hmem
    rw [hheap, (release_of_live (hkept _ _ hlive)).2, Finmap.mem_erase] at hmem
    exact hmem.1 rfl
  · intro _ a s' hne hblock
    refine ⟨?_, ?_⟩
    · rw [hheap, lookup_release ht₁ hne]
      exact hkept a s' hblock
    · intro i hi byte hbyte
      apply hwritten.readU8 _ hbyte
      rw [hlen]
      apply length_le_sub
      intro j hj
      rw [← BitVec.ofNat_add]
      have hother : a ≠ addr := by
        rintro rfl
        exact hnew (Finmap.mem_of_lookup_eq_some hblock)
      exact block_apart ht₁ (hkept a s' hblock) hsize hother hi (by omega)
  · intro hzero
    have hbase := (ht₁.live_aligned addr size hsize).1
    have hvalue := congrArg BitVec.toNat (hresult.symm.trans hzero)
    rw [BitVec.toNat_ofNat, Nat.mod_eq_of_lt hlt] at hvalue
    have hheapBase : 0 < heapBase := by decide
    simp only at hbase
    simp at hvalue
    omega

end Move

def moveBlock (ptr : Word) (s : Nat) (newAddr : Word) : Exec HostOutcome := do
  copyBytes ptr newAddr s
  releaseOrHalt ptr "realloc"
  answer newAddr

theorem moveBlock_ok {ptr newAddr : Word} (hlive : m.heap.live.lookup ptr.toNat = some s)
    (hcopy : ((copyBytes ptr newAddr s).run m).2 = .ok ()) :
    ∃ m', (moveBlock ptr s newAddr).run m = (m', .ok .continue) ∧
      m'.mem = ((copyBytes ptr newAddr s).run m).1.mem ∧
      m'.heap = (m.heap.release ptr.toNat).1 ∧ m'.regs.gprValue 0 true = newAddr := by
  have hheap := run_copyBytes ptr newAddr s m
  unfold moveBlock
  rw [run_bind]
  rcases hrun : (copyBytes ptr newAddr s).run m with ⟨m₁, result⟩
  rw [hrun] at hcopy hheap
  simp only at hcopy hheap
  subst hcopy
  simp only
  have hok := (release_of_live hlive).1
  have hrelease : (releaseOrHalt ptr "realloc").run m₁ =
      ({ m₁ with heap := (m₁.heap.release ptr.toNat).1 }, .ok ()) := by
    rw [releaseOrHalt, run_bind, run_look]
    simp only
    rw [run_bind, run_call, hheap, hok]
    simp only [MachineCall.run, HeapCall.run, run_pure, hheap]
  rw [run_bind_ok hrelease]
  refine ⟨_, rfl, rfl, ?_, gprValue_answer newAddr _⟩
  exact congrArg (fun h => (h.release ptr.toNat).1) hheap

theorem moveBlock_stops {ptr newAddr : Word}
    (hcopy : ((copyBytes ptr newAddr s).run m).2 ≠ .ok ()) (m' : Machine) :
    (moveBlock ptr s newAddr).run m ≠ (m', .ok .continue) := by
  unfold moveBlock
  rw [run_bind]
  rcases hrun : (copyBytes ptr newAddr s).run m with ⟨m₁, e | ⟨⟩⟩
  · intro h
    cases h
  · rw [hrun] at hcopy
    exact absurd rfl hcopy

theorem ptr_ne_zero (ht : m.heap.Tiled)
    (hlive : m.heap.blockSize (m.regs.gprValue 0 true).toNat = some s) :
    m.regs.gprValue 0 true ≠ 0 := by
  intro hzero
  rw [hzero] at hlive
  have hbase : heapBase ≤ 0 := (ht.live_aligned _ s hlive).1
  exact absurd hbase (by decide)

theorem run_realloc_live (ht : m.heap.Tiled)
    (hlive : m.heap.blockSize (m.regs.gprValue 0 true).toNat = some s)
    (hsize : m.regs.gprValue 1 true ≠ 0) :
    ∃ regs, realloc.run m =
      if (m.regs.gprValue 1 true).toNat ≤ s then
        (answer (m.regs.gprValue 0 true)).run { m with regs := regs }
      else
        (match (m.heap.alloc (m.regs.gprValue 1 true).toNat).2 with
          | none => answer 0
          | some addr => moveBlock (m.regs.gprValue 0 true) s (BitVec.ofNat 64 addr)).run
            { m with
              regs := regs, heap := (m.heap.alloc (m.regs.gprValue 1 true).toNat).1 } := by
  obtain ⟨regs, hrun⟩ := run_realloc m
  refine ⟨regs, ?_⟩
  rw [hrun]
  unfold resize
  rw [if_neg (ptr_ne_zero ht hlive), if_neg hsize, run_bind, run_look]
  simp only [hlive]
  split
  · rfl
  · rw [run_bind, run_allocBlock]
    cases (m.heap.alloc (m.regs.gprValue 1 true).toNat).2 with
    | none => rfl
    | some addr => rfl

/-- The old block and the one that takes its place share no byte. -/
theorem new_block_apart {addr : Nat} (ht : m.heap.Tiled)
    (hlive : m.heap.live.lookup (m.regs.gprValue 0 true).toNat = some s)
    (hgrows : s < (m.regs.gprValue 1 true).toNat)
    (ha : (m.heap.alloc (m.regs.gprValue 1 true).toNat).2 = some addr) :
    (m.heap.alloc (m.regs.gprValue 1 true).toNat).1.live.lookup
        (m.regs.gprValue 0 true).toNat = some s ∧
      ∀ i < s, ∀ j < s, m.regs.gprValue 0 true + BitVec.ofNat 64 i ≠
        BitVec.ofNat 64 addr + BitVec.ofNat 64 j := by
  obtain ⟨-, hnew, size, hsize, hfits⟩ := alloc_live ht ha
  have ht₁ : (m.heap.alloc (m.regs.gprValue 1 true).toNat).1.Tiled :=
    HeapState.tiled_run ht (.alloc (m.regs.gprValue 1 true).toNat)
  have hne : (m.regs.gprValue 0 true).toNat ≠ addr := by
    intro heq
    rw [← heq] at hnew
    exact hnew (Finmap.mem_of_lookup_eq_some hlive)
  have hlive₁ : (m.heap.alloc (m.regs.gprValue 1 true).toNat).1.live.lookup
      (m.regs.gprValue 0 true).toNat = some s := by
    rw [live_alloc ha, Finmap.lookup_insert_of_ne _ hne]
    exact hlive
  refine ⟨hlive₁, ?_⟩
  intro i hi j hj
  rw [add_ofNat_eq, ← BitVec.ofNat_add]
  exact block_apart ht₁ hlive₁ hsize hne hi (by omega)

/-- Whatever was called before, `realloc` of a live block to a size other than zero behaves
exactly unless the bytes it answers with in place do not load, or the copy stops. -/
theorem reallocBehaves_iff {m : Machine} {s : Nat} (hheap : HeapRun m.heap.toHeapTables)
    (hlive : m.heap.blockSize (m.regs.gprValue 0 true).toNat = some s)
    (hsize : m.regs.gprValue 1 true ≠ 0) :
    ReallocBehaves m s ↔ ¬ BlockFaults m s ∧ ¬ CopyStops m s := by
  have ht := tiled_of_heapRun hheap
  obtain ⟨regs, hrun⟩ := run_realloc_live ht hlive hsize
  unfold ReallocBehaves
  rw [hrun]
  by_cases hfits : (m.regs.gprValue 1 true).toNat ≤ s
  · have hstays := resizes_inPlace regs s (ptr_ne_zero ht hlive) hfits
    have hcopies : ¬ CopyStops m s := fun hstops => absurd hstops.1 (by omega)
    rw [if_pos hfits, ← hstays, and_iff_left hcopies]
    constructor
    · rintro ⟨m', hsame, hresizes⟩
      obtain rfl := congrArg Prod.fst hsame
      exact hresizes
    · exact fun hresizes => ⟨_, rfl, hresizes⟩
  · have hgrows := Nat.lt_of_not_le hfits
    rw [if_neg hfits, and_iff_right fun hfaults : BlockFaults m s => hfits hfaults.1]
    unfold CopyStops
    rcases ha : (m.heap.alloc (m.regs.gprValue 1 true).toNat).2 with _ | addr
    · constructor
      · rintro - ⟨-, addr, hsome, -⟩
        cases hsome
      · intro _
        exact ⟨_, rfl, resizes_refused regs s (tables_of_refused ha)⟩
    · obtain ⟨hlive₁, hapart⟩ := new_block_apart ht hlive hgrows ha
      have hcopies := copyBytes_ok_iff (m.regs.gprValue 0 true) (BitVec.ofNat 64 addr) s
        { m with regs := regs, heap := (m.heap.alloc (m.regs.gprValue 1 true).toNat).1 }
      constructor
      · rintro ⟨m', hmoved, -⟩ ⟨-, addr', haddr, i, hi, hstops⟩
        cases haddr
        apply moveBlock_stops _ m' hmoved
        rw [ne_eq, hcopies]
        intro hall
        exact hstops (hall i hi)
      · intro hcontinues
        have hcopy := hcopies.mpr fun i hi => by
          by_contra hstops
          exact hcontinues ⟨hgrows, addr, rfl, i, hi, hstops⟩
        obtain ⟨m', hmoved, hmem, hheap', hresult⟩ := moveBlock_ok hlive₁ hcopy
        have hlt := (m.regs.gprValue 1 true).isLt
        have hwritten := written_copyBytes (by omega) hapart hcopy
        rw [← hmem] at hwritten
        exact ⟨m', hmoved, resizes_moved ht hlive hgrows ha hwritten hheap' hresult⟩

/-- A machine whose program allocated sixteen bytes and now asks for a larger block. -/
def growsBlock (mem : Memory) : Machine where
  regs := (RegisterFile.new.writeGpr 0 true 0x900000).writeGpr 1 true 32
  mem := mem
  heap := (HeapState.new.alloc 16).1

theorem heapRun_growsBlock (mem : Memory) : HeapRun (growsBlock mem).heap.toHeapTables :=
  .call ⟨RegisterFile.new.writeGpr 0 true 16, .new, .new⟩ .malloc .empty

/-- A block on a mapped page moves. -/
theorem reallocBehaves_iff_mapped :
    ReallocBehaves (growsBlock (Memory.new.mapPage 0x900000)) 16 := by
  refine (reallocBehaves_iff (heapRun_growsBlock _) (by decide) (by decide)).mpr
    ⟨fun hfaults => absurd hfaults.1 (by decide), ?_⟩
  rintro ⟨-, addr, ha, i, hi, hstops⟩
  have haddr : ((growsBlock (Memory.new.mapPage 0x900000)).heap.alloc 32).2 = some 0x900010 := by
    decide
  have hsame : some addr = some 0x900010 := ha.symm.trans haddr
  cases hsame
  have hpage : ∀ i < 16, pageBase (0x900000 + BitVec.ofNat 64 i) = 0x900000 ∧
      pageBase (BitVec.ofNat 64 0x900010 + BitVec.ofNat 64 i) = 0x900000 := by decide
  have hmapped : (0x900000 : Word) ∈ (Memory.new.mapPage 0x900000).pages.keys := by
    decide
  have hat : (0x900000 : Word) ∈ (Memory.new.mapPage 0x900000).mappedAfter
      (BitVec.ofNat 64 0x900010) i := Finset.mem_union_left _ hmapped
  apply hstops
  refine ⟨.inl ?_, .inl ?_⟩
  · exact (hpage i hi).1 ▸ hat
  · exact (hpage i hi).2.symm ▸ hat

/-- A block that was never written halts the program when it grows. -/
theorem not_reallocBehaves_untouched :
    (growsBlock .new).heap.blockSize 0x900000 = some 16 ∧
      ¬ ReallocBehaves (growsBlock .new) 16 := by
  refine ⟨by decide, ?_⟩
  rintro ⟨m', hrun, -⟩
  have hhalts : (realloc.run (growsBlock .new)).2 = .error (.memoryFault 0x900000 .read) := by
    decide
  rw [hrun] at hhalts
  cases hhalts

end Hosted

end Playground
