/-
The memory without its first page.  A read that keeps off the page finds the same bytes, a
write that keeps off it leaves the same memory less the page; a read that reaches it faults,
and a write that reaches it maps it.
-/
import Playground.Machine.Bytewise

namespace Playground

def PastNullPage (addr : Word) : Prop := 4096 ≤ addr.toNat

/-- No byte of `[addr, addr + n)` is in the first page; the span may run past the last
address and on from zero. -/
def ClearOfNullPage (addr : Word) (n : Nat) : Prop :=
  ∀ i < n, PastNullPage (addr + BitVec.ofNat 64 i)

variable {addr : Word}

theorem pageBase_eq_zero_iff (addr : Word) : pageBase addr = 0 ↔ ¬ PastNullPage addr := by
  unfold PastNullPage
  constructor
  · intro h
    have hnat := congrArg BitVec.toNat h
    rw [pageBase_toNat] at hnat
    simp at hnat
    omega
  · intro h
    apply BitVec.eq_of_toNat_eq
    rw [pageBase_toNat]
    simp
    omega

theorem toNat_add_ofNat (addr : Word) (i : Nat) :
    (addr + BitVec.ofNat 64 i).toNat = (addr.toNat + i) % 2 ^ 64 := by
  rw [BitVec.toNat_add, BitVec.toNat_ofNat]
  omega

theorem clearOfNullPage_iff {n : Nat} (hpos : 0 < n) :
    ClearOfNullPage addr n ↔ PastNullPage addr ∧ addr.toNat + n ≤ 2 ^ 64 := by
  unfold ClearOfNullPage PastNullPage
  have haddr := addr.isLt
  constructor
  · intro h
    have hfirst := h 0 hpos
    rw [toNat_add_ofNat, Nat.add_zero, Nat.mod_eq_of_lt haddr] at hfirst
    refine ⟨hfirst, ?_⟩
    by_contra hwrap
    have hzero := h (2 ^ 64 - addr.toNat) (by omega)
    rw [toNat_add_ofNat] at hzero
    have hsum : addr.toNat + (2 ^ 64 - addr.toNat) = 2 ^ 64 := by omega
    rw [hsum] at hzero
    simp at hzero
  · rintro ⟨hpast, hfits⟩ i hi
    rw [toNat_add_ofNat, Nat.mod_eq_of_lt (by omega)]
    omega

theorem ClearOfNullPage.head {n : Nat} (h : ClearOfNullPage addr (n + 1)) :
    PastNullPage addr := by
  have hfirst := h 0 (Nat.succ_pos n)
  rwa [BitVec.add_zero] at hfirst

theorem ClearOfNullPage.tail {n : Nat} (h : ClearOfNullPage addr (n + 1)) :
    ClearOfNullPage (addr + 1) n := by
  intro i hi
  rw [add_one_add_ofNat]
  exact h (i + 1) (Nat.succ_lt_succ hi)

theorem not_clearOfNullPage_succ {n : Nat} (h : ¬ ClearOfNullPage addr (n + 1)) :
    ¬ PastNullPage addr ∨ ¬ ClearOfNullPage (addr + 1) n := by
  by_contra hboth
  push Not at hboth
  apply h
  intro i hi
  cases i with
  | zero =>
      rw [BitVec.add_zero]
      exact hboth.1
  | succ i =>
      rw [← add_one_add_ofNat]
      exact hboth.2 i (Nat.lt_of_succ_lt_succ hi)

theorem clearOfNullPage_of_not_spansPage {n : Nat} (hpos : 0 < n) (hn : n ≤ 16)
    (hspan : Memory.spansPage addr n = false) (h : PastNullPage addr) : ClearOfNullPage addr n := by
  have hoff := offset_add_le_of_not_spansPage hpos hn hspan
  have haddr := addr.isLt
  rw [pageOffset_toNat] at hoff
  exact (clearOfNullPage_iff hpos).mpr ⟨h, by omega⟩

namespace Memory

variable {m : Memory} {addr : Word}

/-- The memory without its first page: it is not mapped, and no zero-fill span covers it. -/
def withoutNullPage (m : Memory) : Memory :=
  { m with
    pages := m.pages.erase 0
    zeroFill := m.zeroFill.map fun span => (if span.1 < 4096 then 4096 else span.1, span.2) }

theorem not_mem_withoutNullPage (m : Memory) : (0 : Word) ∉ m.withoutNullPage.pages :=
  fun h => (Finmap.mem_erase.mp h).1 rfl

theorem lookup_withoutNullPage (m : Memory) {base : Word} (h : base ≠ 0) :
    m.withoutNullPage.pages.lookup base = m.pages.lookup base :=
  Finmap.lookup_erase_ne h

theorem inZeroFill_withoutNullPage (h : PastNullPage addr) :
    m.withoutNullPage.inZeroFill addr = m.inZeroFill addr := by
  unfold inZeroFill withoutNullPage
  rw [List.any_map]
  congr 1
  funext span
  have hlow : ((if span.1 < 4096 then 4096 else span.1) ≤ addr) ↔ span.1 ≤ addr := by
    unfold PastNullPage at h
    split
    · rename_i hspan
      simp only [BitVec.le_def, BitVec.lt_def] at hspan ⊢
      simp at hspan ⊢
      omega
    · rfl
  simp only [Function.comp, hlow]

theorem inZeroFill_null (h : ¬ PastNullPage addr) : m.withoutNullPage.inZeroFill addr = false := by
  unfold inZeroFill withoutNullPage
  rw [List.any_map, List.any_eq_false]
  intro span _
  unfold PastNullPage at h
  simp only [Function.comp, Bool.and_eq_true, decide_eq_true_eq, not_and]
  intro hlow
  exfalso
  split at hlow
  · simp [BitVec.le_def] at hlow
    omega
  · rename_i hspan
    simp [BitVec.le_def, BitVec.lt_def] at hlow hspan
    omega

section Read

theorem getPage_withoutNullPage (h : PastNullPage addr) :
    m.withoutNullPage.getPage addr = m.getPage addr := by
  have hbase : pageBase addr ≠ 0 := fun hzero => (pageBase_eq_zero_iff addr).mp hzero h
  unfold getPage
  rw [lookup_withoutNullPage m hbase, inZeroFill_withoutNullPage h]

theorem getPage_null (h : ¬ PastNullPage addr) :
    m.withoutNullPage.getPage addr = .error (.memoryFault addr .read) := by
  unfold getPage
  rw [(pageBase_eq_zero_iff addr).mpr h,
    Finmap.lookup_eq_none.mpr (not_mem_withoutNullPage m), inZeroFill_null h]
  rfl

theorem readU8_withoutNullPage (h : PastNullPage addr) :
    m.withoutNullPage.readU8 addr = m.readU8 addr := by
  unfold readU8
  rw [getPage_withoutNullPage h]

theorem readU8_null (h : ¬ PastNullPage addr) :
    m.withoutNullPage.readU8 addr = .error (.memoryFault addr .read) := by
  unfold readU8
  rw [getPage_null h]
  rfl

theorem readEach_withoutNullPage {n : Nat} (h : ClearOfNullPage addr n) :
    m.withoutNullPage.readEach addr n = m.readEach addr n := by
  induction n generalizing addr with
  | zero => rfl
  | succ n ih =>
      unfold readEach
      rw [readU8_withoutNullPage h.head, ih h.tail]

theorem readEach_null {n : Nat} (h : ¬ ClearOfNullPage addr n) :
    (m.withoutNullPage.readEach addr n).isOk = false := by
  induction n generalizing addr with
  | zero => exact absurd (fun i hi => absurd hi (Nat.not_lt_zero i)) h
  | succ n ih =>
      unfold readEach
      by_cases hpast : PastNullPage addr
      · have hrest := ih ((not_clearOfNullPage_succ h).resolve_left (not_not.mpr hpast))
        rcases m.withoutNullPage.readU8 addr with e | byte
        · rfl
        · rcases hbytes : m.withoutNullPage.readEach (addr + 1) n with e | bytes
          · rfl
          · rw [hbytes] at hrest
            cases hrest
      · rw [readU8_null hpast]
        rfl

theorem readLe_withoutNullPage {n : Nat} (hpos : 0 < n) (h : ClearOfNullPage addr n) :
    m.withoutNullPage.readLe addr n = m.readLe addr n := by
  obtain ⟨n, rfl⟩ : ∃ k, n = k + 1 := ⟨n - 1, by omega⟩
  unfold readLe
  rw [readEach_withoutNullPage h, getPage_withoutNullPage h.head]

theorem readLe_null {n : Nat} (hpos : 0 < n) (hn : n ≤ 16) (h : ¬ ClearOfNullPage addr n) :
    (m.withoutNullPage.readLe addr n).isOk = false := by
  unfold readLe
  cases hspan : spansPage addr n with
  | true =>
      have heach := readEach_null (m := m) h
      rcases hbytes : m.withoutNullPage.readEach addr n with e | bytes
      · rfl
      · rw [hbytes] at heach
        cases heach
  | false =>
      have hpast : ¬ PastNullPage addr :=
        fun hpast => h (clearOfNullPage_of_not_spansPage hpos hn hspan hpast)
      rw [getPage_null hpast]
      rfl

end Read

section Write

variable {bytes : List Byte}

theorem mappedPageCount_withoutNullPage_le (m : Memory) :
    m.withoutNullPage.mappedPageCount ≤ m.mappedPageCount := by
  apply Finset.card_le_card
  intro base hbase
  rw [Finmap.mem_keys] at hbase ⊢
  exact (Finmap.mem_erase.mp hbase).2

theorem erase_insert_ne (p : Pages) {base : Word} (h : base ≠ 0) (page : Page) :
    (p.insert base page).erase 0 = (p.erase 0).insert base page := by
  apply Finmap.ext_lookup
  intro other
  by_cases hzero : other = 0
  · subst hzero
    rw [Finmap.lookup_erase, Finmap.lookup_insert_of_ne _ (Ne.symm h), Finmap.lookup_erase]
  · rw [Finmap.lookup_erase_ne hzero]
    by_cases hbase : other = base
    · subst hbase
      rw [Finmap.lookup_insert, Finmap.lookup_insert]
    · rw [Finmap.lookup_insert_of_ne _ hbase, Finmap.lookup_insert_of_ne _ hbase,
        Finmap.lookup_erase_ne hzero]

theorem pageOrMap_withoutNullPage (m : Memory) {base : Word} (h : base ≠ 0) :
    m.withoutNullPage.pageOrMap base =
      ((m.pageOrMap base).1.withoutNullPage, (m.pageOrMap base).2) := by
  unfold pageOrMap
  rw [lookup_withoutNullPage m h]
  rcases m.pages.lookup base with _ | page
  · simp only [withoutNullPage, erase_insert_ne _ h]
    rfl
  · rfl

theorem storeInPage_withoutNullPage (m : Memory) (h : PastNullPage addr) (page : Page)
    (bytes : List Byte) :
    m.withoutNullPage.storeInPage addr page bytes =
      (m.storeInPage addr page bytes).withoutNullPage := by
  have hbase : pageBase addr ≠ 0 := fun hzero => (pageBase_eq_zero_iff addr).mp hzero h
  simp only [storeInPage, noteWrite, withoutNullPage, erase_insert_ne _ hbase]
  rfl

theorem writeInPage_withoutNullPage (h : PastNullPage addr)
    (hok : (m.writeInPage addr bytes).2 = .ok ()) :
    m.withoutNullPage.writeInPage addr bytes =
      ((m.writeInPage addr bytes).1.withoutNullPage, .ok ()) := by
  have hbase : pageBase addr ≠ 0 := fun hzero => (pageBase_eq_zero_iff addr).mp hzero h
  have hmem : pageBase addr ∈ m.withoutNullPage.pages ↔ pageBase addr ∈ m.pages := by
    rw [← Finmap.lookup_isSome, ← Finmap.lookup_isSome, lookup_withoutNullPage m hbase]
  have hcount := mappedPageCount_withoutNullPage_le m
  unfold writeInPage at hok ⊢
  by_cases hfull : pageBase addr ∉ m.pages ∧ maxMappedPages ≤ m.mappedPageCount
  · simp only [if_pos hfull] at hok
    cases hok
  · have hroom : ¬ (pageBase addr ∉ m.withoutNullPage.pages ∧
        maxMappedPages ≤ m.withoutNullPage.mappedPageCount) := by
      rw [hmem]
      exact fun hboth => hfull ⟨hboth.1, hboth.2.trans hcount⟩
    simp only [if_neg hfull, if_neg hroom]
    rw [pageOrMap_withoutNullPage m hbase]
    simp only [storeInPage_withoutNullPage _ h]

theorem writeBytes_withoutNullPage (h : ClearOfNullPage addr bytes.length)
    (hok : (m.writeBytes addr bytes).2 = .ok ()) :
    m.withoutNullPage.writeBytes addr bytes =
      ((m.writeBytes addr bytes).1.withoutNullPage, .ok ()) := by
  induction bytes generalizing m addr with
  | nil => rfl
  | cons byte bytes ih =>
      unfold writeBytes at hok ⊢
      rcases hwrite : m.writeInPage addr [byte] with ⟨m', e | ⟨⟩⟩
      · simp only [hwrite] at hok
        cases hok
      · simp only [hwrite] at hok
        have hok' : (m.writeInPage addr [byte]).2 = .ok () := by rw [hwrite]
        have hsame := writeInPage_withoutNullPage h.head hok'
        rw [hwrite] at hsame
        simp only [hsame]
        exact ih h.tail hok

/-- Writing bytes clear of the first page does the same without it. -/
theorem writeLe_withoutNullPage (hpos : 0 < bytes.length) (h : ClearOfNullPage addr bytes.length)
    (hok : (m.writeLe addr bytes).2 = .ok ()) :
    m.withoutNullPage.writeLe addr bytes =
      ((m.writeLe addr bytes).1.withoutNullPage, .ok ()) := by
  have hpast : PastNullPage addr := by
    obtain ⟨n, hn⟩ : ∃ k, bytes.length = k + 1 := ⟨bytes.length - 1, by omega⟩
    rw [hn] at h
    exact h.head
  unfold writeLe at hok ⊢
  cases hspan : spansPage addr bytes.length with
  | true =>
      simp only [hspan, if_true] at hok ⊢
      exact writeBytes_withoutNullPage h hok
  | false =>
      simp only [hspan, Bool.false_eq_true, if_false] at hok ⊢
      exact writeInPage_withoutNullPage hpast hok

theorem mem_pageOrMap (m : Memory) (base : Word) {other : Word} :
    other ∈ (m.pageOrMap base).1.pages ↔ other = base ∨ other ∈ m.pages := by
  unfold pageOrMap
  rcases hpage : m.pages.lookup base with _ | page
  · exact Finmap.mem_insert
  · constructor
    · exact .inr
    · rintro (rfl | h)
      · exact Finmap.lookup_isSome.mp (by rw [hpage]; rfl)
      · exact h

/-- The pages after a write that went through: its own and those there were. -/
theorem mem_writeInPage (hok : (m.writeInPage addr bytes).2 = .ok ()) {other : Word} :
    other ∈ (m.writeInPage addr bytes).1.pages ↔ other = pageBase addr ∨ other ∈ m.pages := by
  unfold writeInPage at hok ⊢
  by_cases hfull : pageBase addr ∉ m.pages ∧ maxMappedPages ≤ m.mappedPageCount
  · simp only [if_pos hfull] at hok
    cases hok
  · simp only [if_neg hfull]
    refine Finmap.mem_insert.trans ?_
    rw [mem_pageOrMap, ← or_assoc, or_self]

/-- A write unmaps nothing, whether it goes through or not. -/
theorem mem_writeLe_of_mem {other : Word} (h : other ∈ m.pages) (addr : Word)
    (bytes : List Byte) : other ∈ (m.writeLe addr bytes).1.pages := by
  have hpage : ∀ {m : Memory}, other ∈ m.pages → ∀ addr bytes,
      other ∈ (m.writeInPage addr bytes).1.pages := by
    intro m h addr bytes
    by_cases hok : (m.writeInPage addr bytes).2 = .ok ()
    · exact (mem_writeInPage hok).mpr (.inr h)
    · unfold writeInPage at hok ⊢
      by_cases hfull : pageBase addr ∉ m.pages ∧ maxMappedPages ≤ m.mappedPageCount
      · simpa only [if_pos hfull] using h
      · simp [if_neg hfull] at hok
  have heach : ∀ (bytes : List Byte) {m : Memory}, other ∈ m.pages → ∀ addr,
      other ∈ (m.writeBytes addr bytes).1.pages := by
    intro bytes
    induction bytes with
    | nil => exact fun h _ => h
    | cons byte bytes ih =>
        intro m h addr
        have hfirst := hpage h addr [byte]
        unfold writeBytes
        rcases hwrite : m.writeInPage addr [byte] with ⟨m', e | ⟨⟩⟩
        · rw [hwrite] at hfirst
          exact hfirst
        · rw [hwrite] at hfirst
          exact ih hfirst (addr + 1)
  unfold writeLe
  split
  · exact heach bytes h addr
  · exact hpage h addr bytes

theorem writeBytes_null (h : (0 : Word) ∈ m.pages ∨ ¬ ClearOfNullPage addr bytes.length)
    (hok : (m.writeBytes addr bytes).2 = .ok ()) :
    (0 : Word) ∈ (m.writeBytes addr bytes).1.pages := by
  induction bytes generalizing m addr with
  | nil => exact h.resolve_right (not_not.mpr fun i hi => absurd hi (Nat.not_lt_zero i))
  | cons byte bytes ih =>
      unfold writeBytes at hok ⊢
      rcases hwrite : m.writeInPage addr [byte] with ⟨m', e | ⟨⟩⟩
      · simp only [hwrite] at hok
        cases hok
      · simp only [hwrite] at hok ⊢
        have hpages : ∀ other, other ∈ m'.pages ↔ other = pageBase addr ∨ other ∈ m.pages := by
          intro other
          have hok' : (m.writeInPage addr [byte]).2 = .ok () := by rw [hwrite]
          have hmem : other ∈ (m.writeInPage addr [byte]).1.pages ↔ _ := mem_writeInPage hok'
          rwa [hwrite] at hmem
        apply ih _ hok
        rcases h with hmapped | hreach
        · exact .inl ((hpages 0).mpr (.inr hmapped))
        · rcases not_clearOfNullPage_succ hreach with hhere | hlater
          · exact .inl ((hpages 0).mpr (.inl ((pageBase_eq_zero_iff addr).mpr hhere).symm))
          · exact .inr hlater

theorem writeLe_null (hpos : 0 < bytes.length) (hlen : bytes.length ≤ 16)
    (h : ¬ ClearOfNullPage addr bytes.length) (hok : (m.writeLe addr bytes).2 = .ok ()) :
    (0 : Word) ∈ (m.writeLe addr bytes).1.pages := by
  unfold writeLe at hok ⊢
  cases hspan : spansPage addr bytes.length with
  | true =>
      simp only [hspan, if_true] at hok ⊢
      exact writeBytes_null (.inr h) hok
  | false =>
      simp only [hspan, Bool.false_eq_true, if_false] at hok ⊢
      have hpast : ¬ PastNullPage addr :=
        fun hpast => h (clearOfNullPage_of_not_spansPage hpos hlen hspan hpast)
      exact (mem_writeInPage hok).mpr (.inl ((pageBase_eq_zero_iff addr).mpr hpast).symm)

end Write

section Open

/-- Every address can be read, and `room` more pages can be mapped. -/
structure Open (m : Memory) (room : Nat) : Prop where
  readable : ∀ addr, (m.getPage addr).isOk = true
  room : m.mappedPageCount + room ≤ maxMappedPages

variable {room : Nat}

theorem Open.mono {room' : Nat} (h : m.Open room) (hle : room' ≤ room) : m.Open room' :=
  ⟨h.readable, (Nat.add_le_add_left hle _).trans h.room⟩

theorem Open.readU8 (h : m.Open room) (addr : Word) :
    ∃ byte, m.readU8 addr = .ok byte := by
  have hpage := h.readable addr
  unfold Memory.readU8
  rcases hget : m.getPage addr with e | page
  · rw [hget] at hpage
    cases hpage
  · exact ⟨_, rfl⟩

theorem Open.readEach (h : m.Open room) (addr : Word) (n : Nat) :
    ∃ bytes, m.readEach addr n = .ok bytes := by
  induction n generalizing addr with
  | zero => exact ⟨[], rfl⟩
  | succ n ih =>
      obtain ⟨byte, hbyte⟩ := h.readU8 addr
      obtain ⟨bytes, hbytes⟩ := ih (addr + 1)
      exact ⟨byte :: bytes, by rw [Memory.readEach, hbyte, hbytes]; rfl⟩

theorem Open.readLe (h : m.Open room) (addr : Word) (n : Nat) :
    ∃ value, m.readLe addr n = .ok value := by
  obtain ⟨bytes, hbytes⟩ := h.readEach addr n
  have hpage := h.readable addr
  unfold Memory.readLe
  rw [hbytes]
  cases spansPage addr n with
  | true => exact ⟨_, rfl⟩
  | false =>
      rcases hget : m.getPage addr with e | page
      · rw [hget] at hpage
        cases hpage
      · exact ⟨_, rfl⟩

theorem Open.writeInPage (h : m.Open (room + 1)) (addr : Word) (bytes : List Byte) :
    (m.writeInPage addr bytes).2 = .ok () ∧ (m.writeInPage addr bytes).1.Open room := by
  have hroom : ¬ (pageBase addr ∉ m.pages ∧ maxMappedPages ≤ m.mappedPageCount) := by
    have hle := h.room
    omega
  have hok : (m.writeInPage addr bytes).2 = .ok () := by
    unfold Memory.writeInPage
    simp only [if_neg hroom]
  have hzero : (m.writeInPage addr bytes).1.zeroFill = m.zeroFill := by
    unfold Memory.writeInPage
    simp only [if_neg hroom]
    unfold pageOrMap storeInPage noteWrite
    rcases m.pages.lookup (pageBase addr) <;> rfl
  refine ⟨hok, ?_, ?_⟩
  · intro other
    have hpage := h.readable other
    unfold getPage inZeroFill at hpage ⊢
    rw [hzero]
    rcases hlookup : (m.writeInPage addr bytes).1.pages.lookup (pageBase other) with _ | page
    · have hnone : pageBase other ∉ m.pages := fun hmem =>
        Finmap.lookup_eq_none.mp hlookup ((mem_writeInPage hok).mpr (.inr hmem))
      rw [Finmap.lookup_eq_none.mpr hnone] at hpage
      exact hpage
    · rfl
  · have hkeys : (m.writeInPage addr bytes).1.pages.keys ⊆ insert (pageBase addr) m.pages.keys := by
      intro base hbase
      rw [Finmap.mem_keys] at hbase
      rw [Finset.mem_insert, Finmap.mem_keys]
      exact (mem_writeInPage hok).mp hbase
    have hcard := (Finset.card_le_card hkeys).trans (Finset.card_insert_le _ _)
    have hle := h.room
    unfold mappedPageCount at hle ⊢
    omega

theorem Open.writeBytes {bytes : List Byte} (h : m.Open (room + bytes.length)) (addr : Word) :
    (m.writeBytes addr bytes).2 = .ok () ∧ (m.writeBytes addr bytes).1.Open room := by
  induction bytes generalizing m addr with
  | nil => exact ⟨rfl, h⟩
  | cons byte bytes ih =>
      have hmore : m.Open (room + bytes.length + 1) := h
      obtain ⟨hok, hopen⟩ := hmore.writeInPage addr [byte]
      unfold Memory.writeBytes
      rcases hwrite : m.writeInPage addr [byte] with ⟨m', e | ⟨⟩⟩
      · rw [hwrite] at hok
        cases hok
      · rw [hwrite] at hopen
        exact ih hopen (addr + 1)

theorem Open.writeLe {bytes : List Byte} (h : m.Open (room + bytes.length))
    (hpos : 0 < bytes.length) (addr : Word) :
    (m.writeLe addr bytes).2 = .ok () ∧ (m.writeLe addr bytes).1.Open room := by
  unfold Memory.writeLe
  cases spansPage addr bytes.length with
  | true => exact h.writeBytes addr
  | false => exact (h.mono (by omega)).writeInPage addr bytes

/-- A memory that reads everywhere: one zero-fill span up to the last address, whose page is
mapped. -/
def readsEverywhere : Memory :=
  { Memory.new with
    pages := Finmap.singleton (pageBase (BitVec.allOnes 64)) zeroPage
    zeroFill := [(0, BitVec.allOnes 64)] }

theorem open_readsEverywhere : readsEverywhere.Open 64 := by
  constructor
  · intro addr
    unfold getPage
    rcases hpage : readsEverywhere.pages.lookup (pageBase addr) with _ | page
    · have hne : addr ≠ BitVec.allOnes 64 := by
        rintro rfl
        exact Finmap.lookup_eq_none.mp hpage ((Finmap.mem_singleton _ _ _).mpr rfl)
      have hlt : addr < BitVec.allOnes 64 := by
        have htop : addr.toNat ≠ (BitVec.allOnes 64).toNat := fun h => hne (BitVec.eq_of_toNat_eq h)
        rw [BitVec.lt_def]
        rw [BitVec.toNat_allOnes] at htop ⊢
        have haddr := addr.isLt
        omega
      have hfill : readsEverywhere.inZeroFill addr = true := by
        simp only [inZeroFill, readsEverywhere, List.any_cons, List.any_nil, Bool.or_false,
          Bool.and_eq_true, decide_eq_true_eq]
        exact ⟨by simp [BitVec.le_def], hlt⟩
      simp only [hfill, if_true]
      rfl
    · rfl
  · decide

end Open

end Memory

end Playground
