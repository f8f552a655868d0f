/-
The page table byte by byte.  A write is a sequence of byte pokes; its log is
the same sequence with the bytes that were there before, so reverting the log
restores the table.
-/
import Playground.Machine.Memory

namespace Playground

theorem pageBase_toNat (addr : Word) : (pageBase addr).toNat = addr.toNat / 4096 * 4096 := by
  have hmask : ∀ i < 64, pageMask.getLsbD i = decide (12 ≤ i) := by decide
  have hbase : pageBase addr = (addr >>> 12) <<< 12 := by
    apply BitVec.eq_of_getLsbD_eq
    intro i hi
    rw [pageBase, BitVec.getLsbD_and, hmask i hi, BitVec.getLsbD_shiftLeft,
      BitVec.getLsbD_ushiftRight]
    by_cases h : i < 12
    · simp [h]
    · have hsum : 12 + (i - 12) = i := by omega
      simp [h, hi, hsum, Nat.le_of_not_lt h]
  rw [hbase, BitVec.toNat_shiftLeft, BitVec.toNat_ushiftRight, Nat.shiftLeft_eq,
    Nat.shiftRight_eq_div_pow]
  omega

theorem pageOffset_toNat (addr : Word) : (pageOffset addr).toNat = addr.toNat % 4096 := by
  rw [pageOffset, BitVec.toNat_setWidth]

theorem pageOffset_add_one (addr : Word) : pageOffset (addr + 1) = pageOffset addr + 1 := by
  apply BitVec.eq_of_toNat_eq
  rw [pageOffset_toNat, BitVec.toNat_add, BitVec.toNat_add, pageOffset_toNat]
  simp

theorem pageBase_add_one {addr : Word} (h : (pageOffset addr).toNat + 1 < 4096) :
    pageBase (addr + 1) = pageBase addr := by
  apply BitVec.eq_of_toNat_eq
  rw [pageOffset_toNat] at h
  rw [pageBase_toNat, pageBase_toNat, BitVec.toNat_add]
  simp
  omega

theorem eq_of_pageBase_pageOffset {a b : Word} (hbase : pageBase a = pageBase b)
    (hoffset : pageOffset a = pageOffset b) : a = b := by
  have hb := congrArg BitVec.toNat hbase
  have ho := congrArg BitVec.toNat hoffset
  rw [pageBase_toNat, pageBase_toNat] at hb
  rw [pageOffset_toNat, pageOffset_toNat] at ho
  apply BitVec.eq_of_toNat_eq
  omega

theorem offset_add_le_of_not_spansPage {addr : Word} {len : Nat} (hpos : 0 < len) (hlen : len ≤ 16)
    (h : Memory.spansPage addr len = false) : (pageOffset addr).toNat + len ≤ 4096 := by
  have hb : pageBase addr = pageBase (addr + BitVec.ofNat 64 len - 1) := by
    simpa [Memory.spansPage] using h
  have hb := congrArg BitVec.toNat hb
  rw [pageBase_toNat, pageBase_toNat] at hb
  rw [pageOffset_toNat]
  have haddr := addr.isLt
  have hval : (addr + BitVec.ofNat 64 len - 1).toNat = (addr.toNat + (len - 1)) % 2 ^ 64 := by
    rw [BitVec.toNat_sub, BitVec.toNat_add, BitVec.toNat_ofNat]
    simp
    omega
  rw [hval] at hb
  omega

/-- Overwrite one byte of a mapped page. -/
def poke (p : Pages) (addr : Word) (byte : Byte) : Pages :=
  match p.lookup (pageBase addr) with
  | some page => p.insert (pageBase addr) (Function.update page (pageOffset addr) byte)
  | none => p

/-- The byte at `addr`, zero when its page is not mapped. -/
def peek (p : Pages) (addr : Word) : Byte :=
  match p.lookup (pageBase addr) with
  | some page => page (pageOffset addr)
  | none => 0

/-- Overwrite the bytes from `addr` on, upwards. -/
def pokeAll (p : Pages) (addr : Word) : List Byte → Pages
  | [] => p
  | byte :: bytes => pokeAll (poke p addr byte) (addr + 1) bytes

def peekAll (p : Pages) (addr : Word) : Nat → List Byte
  | 0 => []
  | n + 1 => peek p addr :: peekAll p (addr + 1) n

theorem lookup_poke (p : Pages) (addr : Word) (byte : Byte) (base : Word) :
    (poke p addr byte).lookup base =
      if base = pageBase addr then
        (p.lookup base).map fun page => Function.update page (pageOffset addr) byte
      else p.lookup base := by
  unfold poke
  by_cases hbase : base = pageBase addr
  · subst hbase
    cases h : p.lookup (pageBase addr) <;> simp [h]
  · cases h : p.lookup (pageBase addr) <;> simp [hbase]

@[simp] theorem keys_poke (p : Pages) (addr : Word) (byte : Byte) :
    (poke p addr byte).keys = p.keys := by
  ext base
  simp only [Finmap.mem_keys, ← Finmap.lookup_isSome, lookup_poke]
  split <;> simp

@[simp] theorem mem_poke (p : Pages) (addr : Word) (byte : Byte) (base : Word) :
    base ∈ poke p addr byte ↔ base ∈ p := by
  rw [← Finmap.mem_keys, keys_poke, Finmap.mem_keys]

@[simp] theorem keys_pokeAll (p : Pages) (addr : Word) (bytes : List Byte) :
    (pokeAll p addr bytes).keys = p.keys := by
  induction bytes generalizing p addr with
  | nil => rfl
  | cons byte bytes ih => rw [pokeAll, ih, keys_poke]

theorem peek_poke_of_ne {p : Pages} {addr addr' : Word} (byte : Byte) (h : addr' ≠ addr) :
    peek (poke p addr byte) addr' = peek p addr' := by
  unfold peek
  rw [lookup_poke]
  by_cases hbase : pageBase addr' = pageBase addr
  · have hoff : pageOffset addr' ≠ pageOffset addr :=
      fun hoff => h (eq_of_pageBase_pageOffset hbase hoff)
    rw [if_pos hbase]
    cases p.lookup (pageBase addr') <;> simp [Function.update_of_ne hoff]
  · rw [if_neg hbase]

theorem poke_comm {p : Pages} {addr addr' : Word} (byte byte' : Byte) (h : addr' ≠ addr) :
    poke (poke p addr byte) addr' byte' = poke (poke p addr' byte') addr byte := by
  apply Finmap.ext_lookup
  intro base
  simp only [lookup_poke]
  by_cases hbase : base = pageBase addr
  · by_cases hbase' : base = pageBase addr'
    · have hoff : pageOffset addr' ≠ pageOffset addr :=
        fun hoff => h (eq_of_pageBase_pageOffset (hbase' ▸ hbase) hoff)
      rw [if_pos hbase, if_pos hbase', if_pos hbase, if_pos hbase']
      cases p.lookup base <;> simp [Function.update_comm hoff]
    · rw [if_neg hbase', if_neg hbase']
  · simp only [hbase, ↓reduceIte]

/-- Poking back the byte that was there undoes a poke. -/
theorem poke_peek (p : Pages) (addr : Word) (byte : Byte) :
    poke (poke p addr byte) addr (peek p addr) = p := by
  apply Finmap.ext_lookup
  intro base
  simp only [lookup_poke]
  by_cases hbase : base = pageBase addr
  · subst hbase
    unfold peek
    cases p.lookup (pageBase addr) <;> simp
  · simp only [hbase, ↓reduceIte]

theorem add_ofNat_ne_self {addr : Word} {i : Nat} (hpos : 0 < i) (hi : i < 2 ^ 64) :
    addr + BitVec.ofNat 64 i ≠ addr := by
  intro h
  have hzero : BitVec.ofNat 64 i = 0 := by simpa using h
  have htoNat := congrArg BitVec.toNat hzero
  rw [BitVec.toNat_ofNat, Nat.mod_eq_of_lt hi] at htoNat
  simp at htoNat
  omega

theorem add_one_add_ofNat (addr : Word) (i : Nat) :
    addr + 1 + BitVec.ofNat 64 i = addr + BitVec.ofNat 64 (i + 1) := by
  rw [BitVec.add_assoc, BitVec.ofNat_add, BitVec.add_comm 1]
  rfl

/-- One byte a write replaced, with the address it was at. -/
def revertPoke (entry : Word × Byte) (p : Pages) : Pages :=
  poke p entry.1 entry.2

/-- The log entries of a run of replaced bytes that starts at `addr`. -/
def runEntries (addr : Word) : List Byte → List (Word × Byte)
  | [] => []
  | byte :: bytes => (addr, byte) :: runEntries (addr + 1) bytes

theorem mem_runEntries {addr : Word} {bytes : List Byte} {entry : Word × Byte}
    (h : entry ∈ runEntries addr bytes) :
    ∃ i < bytes.length, entry.1 = addr + BitVec.ofNat 64 i := by
  induction bytes generalizing addr with
  | nil => simp [runEntries] at h
  | cons byte bytes ih =>
      rcases List.mem_cons.mp h with rfl | h
      · exact ⟨0, by simp, by simp⟩
      · obtain ⟨i, hi, haddr⟩ := ih h
        exact ⟨i + 1, by simpa using hi, by rw [haddr, add_one_add_ofNat]⟩

theorem exists_mem_runEntries (addr : Word) {bytes : List Byte} {i : Nat}
    (hi : i < bytes.length) :
    ∃ entry ∈ runEntries addr bytes, entry.1 = addr + BitVec.ofNat 64 i := by
  induction bytes generalizing addr i with
  | nil => simp at hi
  | cons byte bytes ih =>
      cases i with
      | zero => exact ⟨(addr, byte), by simp [runEntries], by simp⟩
      | succ i =>
          obtain ⟨entry, hmem, haddr⟩ := ih (addr + 1) (Nat.lt_of_succ_lt_succ hi)
          exact ⟨entry, List.mem_cons_of_mem _ hmem, by rw [haddr, add_one_add_ofNat]⟩

theorem runEntries_append (addr : Word) (bytes bytes' : List Byte) :
    runEntries addr (bytes ++ bytes') =
      runEntries addr bytes ++ runEntries (addr + BitVec.ofNat 64 bytes.length) bytes' := by
  induction bytes generalizing addr with
  | nil => simp [runEntries]
  | cons byte bytes ih =>
      simp only [List.cons_append, runEntries, ih, add_one_add_ofNat, List.length_cons]

theorem pokeAll_append (p : Pages) (addr : Word) (bytes bytes' : List Byte) :
    pokeAll p addr (bytes ++ bytes') =
      pokeAll (pokeAll p addr bytes) (addr + BitVec.ofNat 64 bytes.length) bytes' := by
  induction bytes generalizing p addr with
  | nil => simp [pokeAll]
  | cons byte bytes ih =>
      simp only [List.cons_append, pokeAll, ih, add_one_add_ofNat, List.length_cons]

@[simp] theorem length_peekAll (p : Pages) (addr : Word) (n : Nat) :
    (peekAll p addr n).length = n := by
  induction n generalizing addr with
  | zero => rfl
  | succ n ih => simp [peekAll, ih]

theorem peekAll_poke {p : Pages} {addr : Word} (start : Word) {n : Nat} (byte : Byte)
    (h : ∀ i < n, start + BitVec.ofNat 64 i ≠ addr) :
    peekAll (poke p addr byte) start n = peekAll p start n := by
  induction n generalizing start with
  | zero => rfl
  | succ n ih =>
      have hhead : start ≠ addr := by simpa using h 0 (Nat.succ_pos n)
      have htail := ih (start + 1) fun i hi => by
        rw [add_one_add_ofNat]
        exact h (i + 1) (Nat.succ_lt_succ hi)
      rw [peekAll, peekAll, htail, peek_poke_of_ne byte hhead]

/-- Reverting the bytes a run replaced undoes the run. -/
theorem undoes_pokeAll (p : Pages) (addr : Word) (bytes : List Byte)
    (hlen : bytes.length ≤ 2 ^ 64) :
    Journal.Undoes revertPoke p (runEntries addr (peekAll p addr bytes.length))
      (pokeAll p addr bytes) := by
  induction bytes generalizing p addr with
  | nil => exact Journal.Undoes.refl p
  | cons byte bytes ih =>
      have hshort : bytes.length < 2 ^ 64 := by simpa using hlen
      have hrest : peekAll (poke p addr byte) (addr + 1) bytes.length =
          peekAll p (addr + 1) bytes.length := by
        refine peekAll_poke _ byte fun i hi => ?_
        rw [add_one_add_ofNat]
        exact add_ofNat_ne_self (Nat.succ_pos i) (by omega)
      have htail := ih (poke p addr byte) (addr + 1) hshort.le
      rw [hrest] at htail
      have hhead : Journal.Undoes revertPoke p [(addr, peek p addr)] (poke p addr byte) :=
        poke_peek p addr byte
      exact hhead.trans htail

/-- A run that does not lap itself can be put back in either direction. -/
theorem pokeAll_eq_revertAll (p : Pages) (addr : Word) (bytes : List Byte)
    (hlen : bytes.length ≤ 2 ^ 64) :
    pokeAll p addr bytes = Journal.revertAll revertPoke (runEntries addr bytes) p := by
  induction bytes generalizing p addr with
  | nil => rfl
  | cons byte bytes ih =>
      have hshort : bytes.length < 2 ^ 64 := by simpa using hlen
      have hcomm : ∀ entries : List (Word × Byte), (∀ entry ∈ entries, entry.1 ≠ addr) →
          Journal.revertAll revertPoke entries (poke p addr byte) =
            poke (Journal.revertAll revertPoke entries p) addr byte := by
        intro entries hne
        induction entries with
        | nil => rfl
        | cons entry entries ihe =>
            rw [Journal.revertAll_cons, Journal.revertAll_cons,
              ihe fun e he => hne e (List.mem_cons_of_mem _ he)]
            exact poke_comm _ _ (hne entry List.mem_cons_self)
      rw [pokeAll, ih _ _ hshort.le, hcomm]
      · rfl
      · intro entry hmem
        obtain ⟨i, hi, haddr⟩ := mem_runEntries hmem
        rw [haddr, add_one_add_ofNat]
        exact add_ofNat_ne_self (Nat.succ_pos i) (by omega)

/-- Copying a slice into a mapped page is poking its bytes. -/
theorem insert_splice (p : Pages) (addr : Word) (page : Page) {bytes : List Byte}
    (hpage : p.lookup (pageBase addr) = some page)
    (hfits : (pageOffset addr).toNat + bytes.length ≤ 4096) :
    p.insert (pageBase addr) (page.splice (pageOffset addr) bytes) = pokeAll p addr bytes := by
  induction bytes generalizing p addr page with
  | nil =>
      apply Finmap.ext_lookup
      intro base
      by_cases hbase : base = pageBase addr
      · subst hbase
        simp [pokeAll, Page.splice, hpage]
      · simp [pokeAll, hbase]
  | cons byte bytes ih =>
      have hpoke : poke p addr byte =
          p.insert (pageBase addr) (Function.update page (pageOffset addr) byte) := by
        simp [poke, hpage]
      rw [pokeAll, Page.splice]
      cases bytes with
      | nil => rw [pokeAll, Page.splice, hpoke]
      | cons byte' bytes =>
          have hnext : pageBase (addr + 1) = pageBase addr :=
            pageBase_add_one (by simp only [List.length_cons] at hfits; omega)
          have hoff : (pageOffset (addr + 1)).toNat = (pageOffset addr).toNat + 1 := by
            rw [pageOffset_add_one, BitVec.toNat_add]
            simp only [List.length_cons] at hfits
            simp
            omega
          have hrest := ih (poke p addr byte) (addr + 1)
            (Function.update page (pageOffset addr) byte)
            (by rw [hnext, hpoke, Finmap.lookup_insert])
            (by rw [hoff]; simp only [List.length_cons] at hfits ⊢; omega)
          rw [← hrest, hnext, hpoke, Finmap.insert_insert, pageOffset_add_one]

theorem slice_eq_peekAll {p : Pages} {addr : Word} {page : Page} {n : Nat}
    (hpage : p.lookup (pageBase addr) = some page)
    (hfits : (pageOffset addr).toNat + n ≤ 4096) :
    page.slice (pageOffset addr) n = peekAll p addr n := by
  induction n generalizing addr with
  | zero => rfl
  | succ n ih =>
      rw [Page.slice, peekAll, peek, hpage]
      cases n with
      | zero => rfl
      | succ n =>
          have hnext : pageBase (addr + 1) = pageBase addr := pageBase_add_one (by omega)
          have hoff : (pageOffset (addr + 1)).toNat = (pageOffset addr).toNat + 1 := by
            rw [pageOffset_add_one, BitVec.toNat_add]
            simp
            omega
          rw [← pageOffset_add_one, ih (by rw [hnext, hpage]) (by omega)]

end Playground
