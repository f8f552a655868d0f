/-
Multi-byte accesses against the single bytes: when a read of several bytes gives what its
bytes spell, and which bytes a write changes.
-/
import Playground.Machine.Host

namespace Playground

namespace Memory

variable {m m' : Memory} {addr : Word} {n : Nat} {bytes : List Byte}

theorem leValue_lt (bytes : List Byte) : leValue bytes < 256 ^ bytes.length := by
  induction bytes with
  | nil => simp [leValue]
  | cons byte bytes ih =>
      have hbyte := byte.isLt
      rw [leValue, List.length_cons, Nat.pow_succ]
      omega

theorem length_readEach (h : m.readEach addr n = .ok bytes) : bytes.length = n := by
  induction n generalizing addr bytes with
  | zero =>
      cases h
      rfl
  | succ n ih =>
      obtain ⟨byte, -, h⟩ := bind_eq_ok h
      obtain ⟨rest, hrest, h⟩ := bind_eq_ok h
      cases h
      simp [ih hrest]

theorem length_slice (page : Page) (off : BitVec 12) (n : Nat) :
    (page.slice off n).length = n := by
  induction n generalizing off with
  | zero => rfl
  | succ n ih => simp [Page.slice, ih]

/-- `n` bytes spell a number below `256 ^ n`. -/
theorem readLe_lt {v : Nat} (h : m.readLe addr n = .ok v) :
    v < 256 ^ n := by
  unfold readLe at h
  split at h
  · obtain ⟨bytes, hbytes, h⟩ := bind_eq_ok h
    cases h
    have hlt := leValue_lt bytes
    rwa [length_readEach hbytes] at hlt
  · obtain ⟨page, -, h⟩ := bind_eq_ok h
    cases h
    have hlt := leValue_lt (page.slice (pageOffset addr) n)
    rwa [length_slice] at hlt

/-- A byte is a one-byte number. -/
theorem readLe_one (m : Memory) (addr : Word) :
    m.readLe addr 1 = (m.readU8 addr).map BitVec.toNat := by
  have hspan : spansPage addr 1 = false := by
    unfold spansPage
    simp
  unfold readLe readU8
  rw [hspan]
  cases m.getPage addr with
  | error e => rfl
  | ok page => simp [bind, Except.bind, pure, Except.pure, Except.map, Page.slice, leValue]

theorem writeLe_singleton (m : Memory) (addr : Word) (byte : Byte) :
    m.writeLe addr [byte] = m.writeU8 addr byte := by
  have hone : spansPage addr [byte].length = false := by
    simp [spansPage]
  unfold writeLe writeU8
  rw [hone]
  rfl

theorem leValue_leBytes (n value : Nat) : leValue (leBytes n value) = value % 256 ^ n := by
  induction n generalizing value with
  | zero => simp [leBytes, leValue, Nat.mod_one]
  | succ n ih =>
      have hsplit := Nat.mod_mul (x := value) (a := 256) (b := 256 ^ n)
      have hpow : 256 ^ (n + 1) = 256 * 256 ^ n := Nat.pow_succ'
      rw [leBytes, leValue, ih, BitVec.toNat_ofNat, hpow, hsplit]

theorem take_leBytes {k : Nat} (h : k ≤ n) (value : Nat) :
    (leBytes n value).take k = leBytes k value := by
  induction k generalizing n value with
  | zero => rfl
  | succ k ih =>
      cases n with
      | zero => omega
      | succ n => rw [leBytes, List.take_succ_cons, ih (by omega), leBytes]

/-- The bytes of a write are there. -/
def Holds (m : Memory) (w : Word × List Byte) : Prop :=
  ∀ i byte, w.2[i]? = some byte → m.readU8 (w.1 + BitVec.ofNat 64 i) = .ok byte

theorem Holds.head {byte : Byte}
    (h : m.Holds (addr, byte :: bytes)) : m.readU8 addr = .ok byte := by
  simpa using h 0 byte rfl

theorem Holds.tail {byte : Byte}
    (h : m.Holds (addr, byte :: bytes)) : m.Holds (addr + 1, bytes) := by
  intro i b hb
  rw [add_one_add_ofNat]
  exact h (i + 1) b hb

theorem Holds.take (h : m.Holds (addr, bytes)) (n : Nat) : m.Holds (addr, bytes.take n) := by
  intro i b hb
  rw [List.getElem?_take] at hb
  split at hb
  · exact h i b hb
  · cases hb

theorem readEach_of_holds
    (h : m.Holds (addr, bytes)) : m.readEach addr bytes.length = .ok bytes := by
  induction bytes generalizing addr with
  | nil => rfl
  | cons byte bytes ih =>
      simp only [List.length_cons, readEach, h.head, ih h.tail]
      rfl

theorem getPage_unique {a b : Word} {page page' : Page}
    (hbase : pageBase a = pageBase b) (ha : m.getPage a = .ok page)
    (hb : m.getPage b = .ok page') : page = page' := by
  unfold getPage at ha hb
  rw [hbase] at ha
  split at ha
  · rename_i found hfound
    rw [hfound] at hb
    cases ha
    cases hb
    rfl
  · rename_i hfound
    rw [hfound] at hb
    split at ha
    · cases ha
      simp only at hb
      split at hb
      · cases hb
        rfl
      · cases hb
    · cases ha

theorem getPage_of_readU8 {byte : Byte} (h : m.readU8 addr = .ok byte) :
    ∃ page, m.getPage addr = .ok page ∧ page (pageOffset addr) = byte := by
  obtain ⟨page, hpage, h⟩ := bind_eq_ok h
  exact ⟨page, hpage, Except.ok.inj h⟩

/-- Bytes that stay in one page are a slice of it. -/
theorem slice_of_holds {page : Page}
    (hpage : m.getPage addr = .ok page) (hin : (pageOffset addr).toNat + bytes.length ≤ 4096)
    (h : m.Holds (addr, bytes)) : page.slice (pageOffset addr) bytes.length = bytes := by
  induction bytes generalizing addr with
  | nil => rfl
  | cons byte bytes ih =>
      rw [List.length_cons] at hin
      obtain ⟨page', hpage', hbyte⟩ := getPage_of_readU8 h.head
      obtain rfl := getPage_unique rfl hpage hpage'
      rw [List.length_cons, Page.slice, hbyte]
      congr 1
      cases bytes with
      | nil => rfl
      | cons next bytes =>
          rw [List.length_cons] at hin
          have hbase := pageBase_add_one (show (pageOffset addr).toNat + 1 < 4096 by omega)
          obtain ⟨page', hpage', -⟩ := getPage_of_readU8 h.tail.head
          obtain rfl := getPage_unique hbase.symm hpage hpage'
          have hoffset : (pageOffset (addr + 1)).toNat = (pageOffset addr).toNat + 1 := by
            rw [pageOffset_add_one, BitVec.toNat_add]
            have hone : (1 : BitVec 12).toNat = 1 := rfl
            omega
          have hrest := ih hpage' (by rw [hoffset, List.length_cons]; omega) h.tail
          rw [pageOffset_add_one] at hrest
          exact hrest

/-- Reading the bytes of a write gives the number they spell. -/
theorem readLe_of_holds
    (hpos : 0 < bytes.length) (hlen : bytes.length ≤ 16) (h : m.Holds (addr, bytes)) :
    m.readLe addr bytes.length = .ok (leValue bytes) := by
  unfold readLe
  cases hspan : spansPage addr bytes.length with
  | true =>
      simp only [if_true, readEach_of_holds h]
      rfl
  | false =>
      have hin := offset_add_le_of_not_spansPage hpos hlen hspan
      obtain ⟨byte, hbyte⟩ : ∃ byte, bytes[0]? = some byte := ⟨_, List.getElem?_eq_getElem hpos⟩
      have hread := h 0 byte hbyte
      rw [BitVec.add_zero] at hread
      obtain ⟨page, hpage, -⟩ := getPage_of_readU8 hread
      simp only [Bool.false_eq_true, if_false, hpage]
      show Except.ok _ = _
      rw [slice_of_holds hpage hin h]

/-- The low bytes of a little-endian word that is there. -/
theorem readLe_leBytes {k value : Nat} (hpos : 0 < k) (hk : k ≤ n)
    (hlen : k ≤ 16) (h : m.Holds (addr, leBytes n value)) :
    m.readLe addr k = .ok (value % 256 ^ k) := by
  have htake := h.take k
  rw [take_leBytes hk] at htake
  have hread := readLe_of_holds (by rw [length_leBytes]; exact hpos)
    (by rw [length_leBytes]; exact hlen) htake
  rwa [length_leBytes, leValue_leBytes] at hread

/-- The page of an address is mapped, or it lies in a span that reads as zeros. -/
theorem isMapped_iff (m : Memory) (addr : Word) :
    m.isMapped addr = true ↔ pageBase addr ∈ m.pages ∨ m.inZeroFill addr = true := by
  simp [isMapped]

/-- A byte reads as what its page holds, or as a zero of a span. -/
theorem readU8_eq_ok_iff (m : Memory) (addr : Word) (byte : Byte) :
    m.readU8 addr = .ok byte ↔ m.isMapped addr = true ∧ byte = peek m.pages addr := by
  rw [isMapped_iff]
  unfold readU8 getPage peek
  cases hpage : m.pages.lookup (pageBase addr) with
  | some page =>
      have hmem : pageBase addr ∈ m.pages := Finmap.mem_of_lookup_eq_some hpage
      simp only [hmem, true_or, true_and]
      constructor
      · intro h
        exact (Except.ok.inj h).symm
      · rintro rfl
        rfl
  | none =>
      have hmem : pageBase addr ∉ m.pages := Finmap.lookup_eq_none.mp hpage
      cases hfill : m.inZeroFill addr with
      | false => simp [hmem, bind, Except.bind]
      | true =>
          simp only [hmem, false_or, true_and, if_true]
          constructor
          · intro h
            exact (Except.ok.inj h).symm
          · rintro rfl
            rfl

theorem holds_peekAll (h : ∀ i < n, m.isMapped (addr + BitVec.ofNat 64 i) = true) :
    m.Holds (addr, peekAll m.pages addr n) := by
  induction n generalizing addr with
  | zero =>
      intro i byte hbyte
      cases hbyte
  | succ n ih =>
      have htail : m.Holds (addr + 1, peekAll m.pages (addr + 1) n) := by
        apply ih
        intro i hi
        rw [add_one_add_ofNat]
        exact h (i + 1) (by omega)
      intro i byte hbyte
      cases i with
      | zero =>
          have hhead := h 0 (Nat.succ_pos n)
          rw [BitVec.add_zero] at hhead
          simp only [peekAll, List.getElem?_cons_zero, Option.some_inj] at hbyte
          simp only [BitVec.add_zero]
          exact (m.readU8_eq_ok_iff addr byte).mpr ⟨hhead, hbyte.symm⟩
      | succ i =>
          rw [← add_one_add_ofNat]
          exact htail i byte hbyte

/-- Bytes that are there are what their pages hold. -/
theorem eq_peekAll_of_holds (h : m.Holds (addr, bytes)) :
    bytes = peekAll m.pages addr bytes.length ∧
      ∀ i < bytes.length, m.isMapped (addr + BitVec.ofNat 64 i) = true := by
  induction bytes generalizing addr with
  | nil => exact ⟨rfl, fun i hi => absurd hi (Nat.not_lt_zero i)⟩
  | cons byte bytes ih =>
      obtain ⟨hmapped, hbyte⟩ := (m.readU8_eq_ok_iff addr byte).mp h.head
      obtain ⟨hrest, hall⟩ := ih h.tail
      refine ⟨?_, ?_⟩
      · rw [List.length_cons, peekAll, ← hbyte, ← hrest]
      · intro i hi
        cases i with
        | zero => simpa using hmapped
        | succ i =>
            rw [← add_one_add_ofNat]
            exact hall i (by simpa using hi)

theorem holds_of_readEach (h : m.readEach addr n = .ok bytes) : m.Holds (addr, bytes) := by
  induction n generalizing addr bytes with
  | zero =>
      cases h
      intro i byte hbyte
      cases hbyte
  | succ n ih =>
      obtain ⟨byte, hhead, h⟩ := bind_eq_ok h
      obtain ⟨rest, hrest, h⟩ := bind_eq_ok h
      cases h
      have htail := ih hrest
      intro i b hb
      cases i with
      | zero =>
          cases hb
          simpa using hhead
      | succ i =>
          rw [← add_one_add_ofNat]
          exact htail i b hb

theorem slice_zeroPage (off : BitVec 12) (n : Nat) :
    zeroPage.slice off n = List.replicate n 0 := by
  induction n generalizing off with
  | zero => rfl
  | succ n ih => rw [Page.slice, ih, List.replicate_succ, zeroPage]

theorem peekAll_of_not_mem {p : Pages} (h : ∀ i < n, pageBase (addr + BitVec.ofNat 64 i) ∉ p) :
    peekAll p addr n = List.replicate n 0 := by
  induction n generalizing addr with
  | zero => rfl
  | succ n ih =>
      have hhead := h 0 (Nat.succ_pos n)
      rw [BitVec.add_zero] at hhead
      have hbyte : peek p addr = 0 := by
        unfold peek
        rw [Finmap.lookup_eq_none.mpr hhead]
      have htail : peekAll p (addr + 1) n = List.replicate n 0 := by
        apply ih
        intro i hi
        rw [add_one_add_ofNat]
        exact h (i + 1) (by omega)
      rw [peekAll, hbyte, htail, List.replicate_succ]

/-- A page gives the bytes that an access inside it covers. -/
theorem slice_of_getPage {page : Page}
    (hfits : (pageOffset addr).toNat + n ≤ 4096) (h : m.getPage addr = .ok page) :
    page.slice (pageOffset addr) n = peekAll m.pages addr n := by
  unfold getPage at h
  rcases hpage : m.pages.lookup (pageBase addr) with _ | found
  · have hmem : pageBase addr ∉ m.pages := Finmap.lookup_eq_none.mp hpage
    simp only [hpage] at h
    split at h
    · cases h
      rw [slice_zeroPage, peekAll_of_not_mem]
      intro i hi
      rw [pageBase_add_of_fits hfits hi]
      exact hmem
    · cases h
  · simp only [hpage] at h
    cases h
    exact slice_eq_peekAll hpage hfits

theorem getPage_isOk (m : Memory) (addr : Word) :
    (∃ page, m.getPage addr = .ok page) ↔ m.isMapped addr = true := by
  rw [isMapped_iff]
  unfold getPage
  rcases hpage : m.pages.lookup (pageBase addr) with _ | found
  · have hmem : pageBase addr ∉ m.pages := Finmap.lookup_eq_none.mp hpage
    cases hfill : m.inZeroFill addr with
    | false => simp [hmem]
    | true => simp
  · simp [Finmap.mem_of_lookup_eq_some hpage]

/-- A read inside one page looks only at the page of its first byte. -/
theorem readLe_inPage (hpos : 0 < n) (hn : n ≤ 16) (hspan : spansPage addr n = false) (v : Nat) :
    m.readLe addr n = .ok v ↔
      m.isMapped addr = true ∧ v = leValue (peekAll m.pages addr n) := by
  have hfits := offset_add_le_of_not_spansPage hpos hn hspan
  unfold readLe
  rw [hspan]
  simp only [Bool.false_eq_true, if_false]
  constructor
  · intro h
    obtain ⟨page, hpage, h⟩ := bind_eq_ok h
    rw [← slice_of_getPage hfits hpage]
    exact ⟨(m.getPage_isOk addr).mp ⟨page, hpage⟩, (Except.ok.inj h).symm⟩
  · rintro ⟨hmapped, rfl⟩
    obtain ⟨page, hpage⟩ := (m.getPage_isOk addr).mpr hmapped
    rw [← slice_of_getPage hfits hpage, hpage]
    rfl

/-- A read that crosses into the next page looks at each byte. -/
theorem readLe_spans (hspan : spansPage addr n = true) (v : Nat) :
    m.readLe addr n = .ok v ↔
      ∃ bytes, bytes.length = n ∧ m.Holds (addr, bytes) ∧ v = leValue bytes := by
  unfold readLe
  rw [hspan, if_pos rfl]
  constructor
  · intro h
    obtain ⟨bytes, hbytes, h⟩ := bind_eq_ok h
    exact ⟨bytes, length_readEach hbytes, holds_of_readEach hbytes, (Except.ok.inj h).symm⟩
  · rintro ⟨bytes, rfl, hholds, rfl⟩
    rw [readEach_of_holds hholds]
    rfl

/-- A read that succeeds gives what its bytes' pages hold. -/
theorem eq_leValue_of_readLe {v : Nat} (hpos : 0 < n) (hn : n ≤ 16)
    (h : m.readLe addr n = .ok v) : v = leValue (peekAll m.pages addr n) := by
  cases hspan : spansPage addr n with
  | true =>
      obtain ⟨bytes, rfl, hholds, rfl⟩ := (readLe_spans hspan v).mp h
      rw [← (eq_peekAll_of_holds hholds).1]
  | false => exact ((readLe_inPage hpos hn hspan v).mp h).2

/-- The situation in which a read inside one page answers for bytes that are not there: no
page is mapped, and the span that its first byte lies in ends before its last. -/
def ReadsPastFill (m : Memory) (addr : Word) (n : Nat) : Prop :=
  spansPage addr n = false ∧ pageBase addr ∉ m.pages ∧ m.inZeroFill addr = true ∧
    ∃ i < n, m.inZeroFill (addr + BitVec.ofNat 64 i) = false

/-- A read gives a number exactly when each of its bytes can be read, and then the number
they spell. -/
def ReadsEach (m : Memory) (addr : Word) (n : Nat) : Prop :=
  ∀ v, m.readLe addr n = .ok v ↔
    ∃ bytes, bytes.length = n ∧ m.Holds (addr, bytes) ∧ v = leValue bytes

theorem readsEach_iff (m : Memory) (addr : Word) (hpos : 0 < n) (hn : n ≤ 16) :
    m.ReadsEach addr n ↔ ¬ m.ReadsPastFill addr n := by
  cases hspan : spansPage addr n with
  | true =>
      constructor
      · rintro - ⟨hinside, -⟩
        rw [hspan] at hinside
        cases hinside
      · intro _ v
        exact readLe_spans hspan v
  | false =>
      have hfits := offset_add_le_of_not_spansPage hpos hn hspan
      constructor
      · rintro hreads ⟨-, hmem, hfill, i, hi, hpast⟩
        have hread := (readLe_inPage hpos hn hspan _).mpr
          ⟨(m.isMapped_iff addr).mpr (.inr hfill), rfl⟩
        obtain ⟨bytes, rfl, hholds, -⟩ := (hreads _).mp hread
        have hbyte := (eq_peekAll_of_holds hholds).2 i hi
        rw [isMapped_iff, pageBase_add_of_fits hfits hi, hpast] at hbyte
        rcases hbyte with hbyte | hbyte
        · exact hmem hbyte
        · cases hbyte
      · intro hpast v
        rw [readLe_inPage hpos hn hspan]
        constructor
        · rintro ⟨hmapped, rfl⟩
          refine ⟨_, length_peekAll _ _ _, holds_peekAll ?_, rfl⟩
          intro i hi
          rw [isMapped_iff] at hmapped ⊢
          rw [pageBase_add_of_fits hfits hi]
          rcases hmapped with hmem | hfill
          · exact .inl hmem
          · by_cases hmem : pageBase addr ∈ m.pages
            · exact .inl hmem
            · right
              by_contra hzero
              exact hpast ⟨hspan, hmem, hfill, i, hi, Bool.not_eq_true _ ▸ hzero⟩
        · rintro ⟨bytes, rfl, hholds, rfl⟩
          obtain ⟨heq, hmapped⟩ := eq_peekAll_of_holds hholds
          have hfirst := hmapped 0 hpos
          rw [BitVec.add_zero] at hfirst
          exact ⟨hfirst, congrArg leValue heq⟩

/-- What a write leaves: its own bytes changed and no others, all of its pages mapped, and
no page or span gone. -/
structure Written (m : Memory) (addr : Word) (bytes : List Byte) (m' : Memory) : Prop where
  changed : ∀ a, peek m'.pages a = bytes.getD (a - addr).toNat (peek m.pages a)
  mapped : ∀ i < bytes.length, pageBase (addr + BitVec.ofNat 64 i) ∈ m'.pages
  keeps : ∀ base ∈ m.pages, base ∈ m'.pages
  zeroFill : m'.zeroFill = m.zeroFill

/-- The bytes after the first, over the first. -/
theorem getD_cons_sub (hlen : bytes.length < 2 ^ 64) (addr a : Word) (byte old : Byte) :
    bytes.getD (a - (addr + 1)).toNat ([byte].getD (a - addr).toNat old) =
      (byte :: bytes).getD (a - addr).toNat old := by
  have hsub : a - (addr + 1) = a - addr - 1 := by
    rw [BitVec.sub_sub]
  rw [hsub]
  generalize a - addr = d
  have hd := d.isLt
  have hone : (1 : Word).toNat = 1 := rfl
  rcases Nat.eq_zero_or_pos d.toNat with hzero | hpos
  · have hback : (d - 1).toNat = 2 ^ 64 - 1 := by
      rw [BitVec.toNat_sub, hzero, hone]
      rfl
    rw [hback, hzero, List.getD_eq_default _ _ (by omega)]
    rfl
  · have hback : (d - 1).toNat = d.toNat - 1 := by
      rw [BitVec.toNat_sub, hone]
      omega
    obtain ⟨k, hk⟩ := Nat.exists_eq_succ_of_ne_zero (Nat.pos_iff_ne_zero.mp hpos)
    rw [hback, hk]
    rfl

theorem peek_poke_self {p : Pages} (h : pageBase addr ∈ p) (byte : Byte) :
    peek (poke p addr byte) addr = byte := by
  obtain ⟨page, hpage⟩ := Finmap.mem_iff.mp h
  unfold peek
  rw [lookup_poke, if_pos rfl, hpage]
  exact Function.update_self _ _ _

theorem peek_poke {p : Pages} (h : pageBase addr ∈ p) (byte : Byte) (a : Word) :
    peek (poke p addr byte) a = [byte].getD (a - addr).toNat (peek p a) := by
  by_cases ha : a = addr
  · rw [ha, peek_poke_self h, BitVec.sub_self]
    rfl
  · have hne : (a - addr).toNat ≠ 0 := by
      intro hzero
      apply ha
      have hsub : a - addr = 0 := BitVec.eq_of_toNat_eq hzero
      exact sub_eq_zero.mp hsub
    have hpast : [byte].length ≤ (a - addr).toNat := Nat.pos_iff_ne_zero.mpr hne
    rw [peek_poke_of_ne byte ha, List.getD_eq_default _ _ hpast]

/-- Poking bytes over mapped pages changes them alone. -/
theorem peek_pokeAll {p : Pages} (hlen : bytes.length ≤ 2 ^ 64)
    (h : ∀ i < bytes.length, pageBase (addr + BitVec.ofNat 64 i) ∈ p) (a : Word) :
    peek (pokeAll p addr bytes) a = bytes.getD (a - addr).toNat (peek p a) := by
  induction bytes generalizing p addr with
  | nil => rfl
  | cons byte bytes ih =>
      rw [List.length_cons] at hlen
      have hhead := h 0 (Nat.succ_pos _)
      rw [BitVec.add_zero] at hhead
      rw [pokeAll, ih (by omega), peek_poke hhead, getD_cons_sub (by omega)]
      intro i hi
      rw [mem_poke, add_one_add_ofNat]
      exact h (i + 1) (by simpa using hi)

/-- A write inside one page. -/
theorem Wrote.written
    (hfits : (pageOffset addr).toNat + bytes.length ≤ 4096) (h : Wrote m addr bytes m') :
    Written m addr bytes m' := by
  obtain ⟨p, hp, hpages, -⟩ := h.pages
  have hbase : pageBase addr ∈ p := by
    rcases hp with ⟨hmem, rfl⟩ | ⟨-, rfl⟩
    · exact hmem
    · rw [Finmap.mem_insert]
      exact .inl rfl
  have hkept : ∀ base ∈ m.pages, base ∈ p := by
    intro base hmem
    rcases hp with ⟨-, rfl⟩ | ⟨-, rfl⟩
    · exact hmem
    · rw [Finmap.mem_insert]
      exact .inr hmem
  have hsame : ∀ a, peek p a = peek m.pages a := by
    intro a
    rcases hp with ⟨-, rfl⟩ | ⟨hnot, rfl⟩
    · rfl
    · unfold peek
      by_cases hbase : pageBase a = pageBase addr
      · rw [hbase, Finmap.lookup_insert, Finmap.lookup_eq_none.mpr hnot]
        rfl
      · rw [Finmap.lookup_insert_of_ne _ hbase]
  have hall : ∀ i < bytes.length, pageBase (addr + BitVec.ofNat 64 i) ∈ p := by
    intro i hi
    rw [pageBase_add_of_fits hfits hi]
    exact hbase
  have hmem : ∀ base, base ∈ m'.pages ↔ base ∈ p := by
    intro base
    rw [hpages, ← Finmap.mem_keys, keys_pokeAll, Finmap.mem_keys]
  refine ⟨?_, ?_, ?_, h.zeroFill⟩
  · intro a
    rw [hpages, peek_pokeAll (by omega) hall, hsame]
  · intro i hi
    exact (hmem _).mpr (hall i hi)
  · intro base hbase
    exact (hmem _).mpr (hkept base hbase)

/-- One byte, and then the bytes after it. -/
theorem Written.cons {m m' m'' : Memory} {addr : Word} {byte : Byte} {bytes : List Byte}
    (hlen : bytes.length < 2 ^ 64) (hfirst : Written m addr [byte] m')
    (hrest : Written m' (addr + 1) bytes m'') : Written m addr (byte :: bytes) m'' := by
  refine ⟨?_, ?_, ?_, hrest.zeroFill.trans hfirst.zeroFill⟩
  · intro a
    rw [hrest.changed, hfirst.changed, getD_cons_sub hlen]
  · intro i hi
    cases i with
    | zero => exact hrest.keeps _ (hfirst.mapped 0 Nat.zero_lt_one)
    | succ i =>
        rw [← add_one_add_ofNat]
        exact hrest.mapped i (by simpa using hi)
  · intro base hbase
    exact hrest.keeps base (hfirst.keeps base hbase)

/-- The bytes of a second span, over those of the span in front of it. -/
theorem getD_append_sub {first rest : List Byte} (hlen : first.length + rest.length ≤ 2 ^ 64)
    (addr a : Word) (old : Byte) :
    rest.getD (a - (addr + BitVec.ofNat 64 first.length)).toNat
        (first.getD (a - addr).toNat old) = (first ++ rest).getD (a - addr).toNat old := by
  have hsub : a - (addr + BitVec.ofNat 64 first.length) =
      a - addr - BitVec.ofNat 64 first.length := by
    rw [BitVec.sub_sub]
  rw [hsub]
  generalize a - addr = d
  have hd := d.isLt
  by_cases hempty : rest.length = 0
  · rw [List.length_eq_zero_iff] at hempty
    rw [hempty, List.append_nil]
    rfl
  · have hsize : (BitVec.ofNat 64 first.length).toNat = first.length := by
      rw [BitVec.toNat_ofNat, Nat.mod_eq_of_lt (by omega)]
    by_cases hin : d.toNat < first.length
    · have hback : (d - BitVec.ofNat 64 first.length).toNat = 2 ^ 64 - first.length + d.toNat := by
        rw [BitVec.toNat_sub, hsize, Nat.mod_eq_of_lt (by omega)]
      rw [hback, List.getD_eq_default _ _ (by omega), List.getD_append _ _ _ _ hin]
    · have hback : (d - BitVec.ofNat 64 first.length).toNat = d.toNat - first.length := by
        rw [BitVec.toNat_sub, hsize]
        omega
      rw [hback, List.getD_eq_default first _ (by omega), List.getD_append_right _ _ _ _ (by omega)]

/-- A span, and then the span after it. -/
theorem Written.append {m'' : Memory} {first rest : List Byte}
    (hlen : first.length + rest.length ≤ 2 ^ 64) (hfirst : Written m addr first m')
    (hrest : Written m' (addr + BitVec.ofNat 64 first.length) rest m'') :
    Written m addr (first ++ rest) m'' := by
  refine ⟨?_, ?_, ?_, hrest.zeroFill.trans hfirst.zeroFill⟩
  · intro a
    rw [hrest.changed, hfirst.changed, getD_append_sub hlen]
  · intro i hi
    rw [List.length_append] at hi
    by_cases hin : i < first.length
    · exact hrest.keeps _ (hfirst.mapped i hin)
    · have hpast := hrest.mapped (i - first.length) (by omega)
      have hsum : first.length + (i - first.length) = i := by omega
      rw [BitVec.add_assoc, ← BitVec.ofNat_add, hsum] at hpast
      exact hpast
  · intro base hbase
    exact hrest.keeps base (hfirst.keeps base hbase)

theorem written_of_writeBytes
    (hlen : bytes.length ≤ 2 ^ 64) (h : m.writeBytes addr bytes = (m', .ok ())) :
    Written m addr bytes m' := by
  induction bytes generalizing m addr with
  | nil =>
      cases h
      exact ⟨fun a => rfl, fun i hi => absurd hi (Nat.not_lt_zero i), fun _ => id, rfl⟩
  | cons byte bytes ih =>
      rw [List.length_cons] at hlen
      have hfits : (pageOffset addr).toNat + [byte].length ≤ 4096 := (pageOffset addr).isLt
      rcases m.writeInPage_cases addr [byte] hfits with ⟨hrefused, -⟩ | ⟨first, hwrite, hwrote⟩
      · rw [writeBytes, hrefused] at h
        cases h
      · rw [writeBytes, hwrite] at h
        exact (hwrote.written hfits).cons (by omega) (ih (by omega) h)

/-- A write that succeeds changes its own bytes. -/
theorem written_of_writeLe (hpos : 0 < bytes.length) (hlen : bytes.length ≤ 16)
    (h : m.writeLe addr bytes = (m', .ok ())) : Written m addr bytes m' := by
  unfold writeLe at h
  split at h
  · exact written_of_writeBytes (by omega) h
  · rename_i hspan
    have hfits := offset_add_le_of_not_spansPage hpos hlen (by simpa using hspan)
    rcases m.writeInPage_cases addr bytes hfits with ⟨hrefused, -⟩ | ⟨first, hwrite, hwrote⟩
    · rw [hrefused] at h
      cases h
    · rw [hwrite] at h
      cases h
      exact hwrote.written hfits

/-- The runs of a step that has written nothing, or one span that ends at an address. -/
def OneRun (m : Memory) (addr : Word) (n : Nat) : Prop :=
  if n = 0 then m.stepWrites = [] else m.stepWrites = [(addr, n)]

theorem OneRun.noteRun {len : Nat} (h : m.OneRun addr n) (hlen : 0 < len)
    (hruns : m'.undo.runs = Playground.noteRun m.undo.runs (addr + BitVec.ofNat 64 n) len) :
    m'.OneRun addr (n + len) := by
  unfold OneRun at h ⊢
  rw [if_neg (by omega)]
  unfold stepWrites at h ⊢
  rw [hruns]
  split at h
  · rename_i hzero
    rw [h, hzero, Nat.zero_add, BitVec.add_zero]
    rfl
  · rw [h]
    simp [Playground.noteRun]

theorem OneRun.writeBytes (h : m.OneRun addr n)
    (hwrite : m.writeBytes (addr + BitVec.ofNat 64 n) bytes = (m', .ok ())) :
    m'.OneRun addr (n + bytes.length) := by
  induction bytes generalizing m n with
  | nil =>
      cases hwrite
      exact h
  | cons byte bytes ih =>
      have hfits : (pageOffset (addr + BitVec.ofNat 64 n)).toNat + [byte].length ≤ 4096 :=
        (pageOffset (addr + BitVec.ofNat 64 n)).isLt
      rcases m.writeInPage_cases _ [byte] hfits with ⟨hrefused, -⟩ | ⟨first, hfirst, hwrote⟩
      · rw [Memory.writeBytes, hrefused] at hwrite
        cases hwrite
      · rw [Memory.writeBytes, hfirst] at hwrite
        have hone := h.noteRun Nat.zero_lt_one hwrote.runs
        have hnext : addr + BitVec.ofNat 64 n + 1 = addr + BitVec.ofNat 64 (n + 1) := by
          rw [BitVec.ofNat_add, BitVec.add_assoc]
          rfl
        rw [hnext] at hwrite
        have hrest := ih hone hwrite
        rwa [Nat.add_assoc, Nat.add_comm 1] at hrest

/-- A write that starts where a step's one run ends is part of it. -/
theorem OneRun.writeLe (h : m.OneRun addr n) (hpos : 0 < bytes.length) (hlen : bytes.length ≤ 16)
    (hwrite : m.writeLe (addr + BitVec.ofNat 64 n) bytes = (m', .ok ())) :
    m'.OneRun addr (n + bytes.length) := by
  unfold Memory.writeLe at hwrite
  split at hwrite
  · exact h.writeBytes hwrite
  · rename_i hspan
    have hfits := offset_add_le_of_not_spansPage hpos hlen (by simpa using hspan)
    rcases m.writeInPage_cases _ bytes hfits with ⟨hrefused, -⟩ | ⟨first, hfirst, hwrote⟩
    · rw [hrefused] at hwrite
      cases hwrite
    · rw [hfirst] at hwrite
      cases hwrite
      exact h.noteRun hpos hwrote.runs

/-- What was written can be read back from any byte of it on. -/
theorem Written.holds
    (hlen : bytes.length ≤ 2 ^ 64) (h : Written m addr bytes m') : m'.Holds (addr, bytes) := by
  intro i byte hbyte
  obtain ⟨hi, rfl⟩ := List.getElem?_eq_some_iff.mp hbyte
  have hshort : i < bytes.length := hi
  rw [readU8_eq_ok_iff, isMapped_iff]
  refine ⟨.inl (h.mapped i hi), ?_⟩
  have hback : (addr + BitVec.ofNat 64 i - addr).toNat = i := by
    rw [add_sub_cancel_left, BitVec.toNat_ofNat, Nat.mod_eq_of_lt (by omega)]
  rw [h.changed, hback, List.getD_eq_getElem _ _ hi]

theorem Holds.drop (h : m.Holds (addr, bytes))
    (start : Nat) : m.Holds (addr + BitVec.ofNat 64 start, bytes.drop start) := by
  intro i byte hbyte
  rw [List.getElem?_drop] at hbyte
  simp only
  rw [BitVec.add_assoc, ← BitVec.ofNat_add]
  exact h (start + i) byte hbyte

/-- Bytes that a write does not cover read as before. -/
theorem Written.readU8 {a : Word} {byte : Byte}
    (h : Written m addr bytes m') (hpast : bytes.length ≤ (a - addr).toNat)
    (hread : m.readU8 a = .ok byte) : m'.readU8 a = .ok byte := by
  rw [readU8_eq_ok_iff, isMapped_iff] at hread ⊢
  obtain ⟨hmapped, rfl⟩ := hread
  refine ⟨?_, ?_⟩
  · rcases hmapped with hmem | hfill
    · exact .inl (h.keeps _ hmem)
    · right
      unfold inZeroFill
      rw [h.zeroFill]
      exact hfill
  · rw [h.changed, List.getD_eq_default _ _ hpast]

end Memory

/-- The widths memory is read and written at. -/
inductive AccessWidth
  | u8
  | u16
  | u32
  | u64
  | u128

namespace AccessWidth

def bytes : AccessWidth → Nat
  | .u8 => 1
  | .u16 => 2
  | .u32 => 4
  | .u64 => 8
  | .u128 => 16

theorem bytes_pos (w : AccessWidth) : 0 < w.bytes := by cases w <;> decide

theorem bytes_le (w : AccessWidth) : w.bytes ≤ 16 := by cases w <;> decide

end AccessWidth

namespace Memory

/-- The read of a width, as a number. -/
def read (m : Memory) (addr : Word) : AccessWidth → Except EmuError Nat
  | .u8 => (m.readU8 addr).map BitVec.toNat
  | .u16 => (m.readU16 addr).map BitVec.toNat
  | .u32 => (m.readU32 addr).map BitVec.toNat
  | .u64 => (m.readU64 addr).map BitVec.toNat
  | .u128 => (m.readU128 addr).map BitVec.toNat

/-- The write of a number at a width. -/
def write (m : Memory) (addr : Word) (value : Nat) : AccessWidth → Memory × Except EmuError Unit
  | .u8 => m.writeU8 addr (BitVec.ofNat 8 value)
  | .u16 => m.writeU16 addr (BitVec.ofNat 16 value)
  | .u32 => m.writeU32 addr (BitVec.ofNat 32 value)
  | .u64 => m.writeU64 addr (BitVec.ofNat 64 value)
  | .u128 => m.writeU128 addr (BitVec.ofNat 128 value)

theorem map_readLe (m : Memory) (addr : Word) {n w : Nat} (hw : 2 ^ w = 256 ^ n) :
    ((m.readLe addr n).map (BitVec.ofNat w)).map BitVec.toNat = m.readLe addr n := by
  rcases hread : m.readLe addr n with e | v
  · rfl
  · have hlt := readLe_lt hread
    simp only [Except.map, BitVec.toNat_ofNat]
    rw [Nat.mod_eq_of_lt (hw ▸ hlt)]

theorem read_eq (m : Memory) (addr : Word) (w : AccessWidth) :
    m.read addr w = m.readLe addr w.bytes := by
  cases w with
  | u8 => exact (m.readLe_one addr).symm
  | u16 => exact m.map_readLe addr rfl
  | u32 => exact m.map_readLe addr rfl
  | u64 => exact m.map_readLe addr rfl
  | u128 => exact m.map_readLe addr rfl

theorem leBytes_mod (n value : Nat) : leBytes n (value % 256 ^ n) = leBytes n value := by
  induction n generalizing value with
  | zero => rfl
  | succ n ih =>
      have hpow : 256 ^ (n + 1) = 256 * 256 ^ n := Nat.pow_succ'
      have hbyte : BitVec.ofNat 8 (value % 256 ^ (n + 1)) = BitVec.ofNat 8 value := by
        apply BitVec.eq_of_toNat_eq
        rw [BitVec.toNat_ofNat, BitVec.toNat_ofNat, hpow, Nat.mod_mul_right_mod]
      have hrest : value % 256 ^ (n + 1) / 256 = value / 256 % 256 ^ n := by
        rw [hpow, Nat.mod_mul_right_div_self]
      rw [leBytes, leBytes, hbyte, hrest, ih]

theorem write_eq (m : Memory) (addr : Word) (value : Nat) (w : AccessWidth) :
    m.write addr value w = m.writeLe addr (leBytes w.bytes value) := by
  cases w with
  | u8 => exact (m.writeLe_singleton addr (BitVec.ofNat 8 value)).symm
  | u16 => exact congrArg (m.writeLe addr) (leBytes_mod 2 value)
  | u32 => exact congrArg (m.writeLe addr) (leBytes_mod 4 value)
  | u64 => exact congrArg (m.writeLe addr) (leBytes_mod 8 value)
  | u128 => exact congrArg (m.writeLe addr) (leBytes_mod 16 value)

/-- A read gives a number exactly when each of its bytes can be read, and then the one they
spell. -/
def ReadsBytewise (m : Memory) (addr : Word) (w : AccessWidth) : Prop :=
  ∀ v, m.read addr w = .ok v ↔
    ∃ bytes, bytes.length = w.bytes ∧ m.Holds (addr, bytes) ∧ v = leValue bytes

/-- A write that succeeds changes its own bytes alone: each byte holds what was written there
or what it held, the others read as before, and what was written reads back at every width
that fits in it. -/
def WritesBytewise (m : Memory) (addr : Word) (w : AccessWidth) : Prop :=
  ∀ value m', m.write addr value w = (m', .ok ()) →
    (∀ a, peek m'.pages a = (leBytes w.bytes value).getD (a - addr).toNat (peek m.pages a)) ∧
    (∀ a byte, w.bytes ≤ (a - addr).toNat → m.readU8 a = .ok byte → m'.readU8 a = .ok byte) ∧
    (∀ start (back : AccessWidth), start + back.bytes ≤ w.bytes →
      m'.read (addr + BitVec.ofNat 64 start) back =
        .ok (value / 256 ^ start % 256 ^ back.bytes)) ∧
    ∀ a (back : AccessWidth) v, m'.read a back = .ok v →
      v = leValue (peekAll m'.pages a back.bytes)

theorem drop_leBytes (n start value : Nat) :
    (leBytes n value).drop start = leBytes (n - start) (value / 256 ^ start) := by
  induction start generalizing n value with
  | zero => simp
  | succ start ih =>
      cases n with
      | zero => simp [leBytes]
      | succ n =>
          rw [leBytes, List.drop_succ_cons, ih, Nat.div_div_eq_div_mul, ← Nat.pow_succ',
            Nat.succ_sub_succ]

theorem readsBytewise_iff (m : Memory) (addr : Word) (w : AccessWidth) :
    m.ReadsBytewise addr w ↔ ¬ m.ReadsPastFill addr w.bytes := by
  unfold ReadsBytewise
  simp only [read_eq]
  exact m.readsEach_iff addr w.bytes_pos w.bytes_le

theorem writesBytewise (m : Memory) (addr : Word) (w : AccessWidth) :
    m.WritesBytewise addr w := by
  intro value m' hwrite
  rw [write_eq] at hwrite
  have hle := w.bytes_le
  have hlen : (leBytes w.bytes value).length = w.bytes := length_leBytes _ _
  have hwritten := written_of_writeLe (by rw [hlen]; exact w.bytes_pos) (by rw [hlen]; exact hle)
    hwrite
  refine ⟨hwritten.changed, ?_, ?_, ?_⟩
  · intro a byte hpast
    exact hwritten.readU8 (by rw [hlen]; exact hpast)
  · intro start back hfits
    have hholds := (hwritten.holds (by omega)).drop start
    rw [drop_leBytes] at hholds
    rw [read_eq]
    exact readLe_leBytes back.bytes_pos (by omega) back.bytes_le hholds
  · intro a back v hread
    rw [read_eq] at hread
    exact eq_leValue_of_readLe back.bytes_pos back.bytes_le hread

/-- Accesses are byte-wise exactly away from a read past the end of a zero-fill span. -/
theorem bytewise_iff (m : Memory) (addr : Word) (w : AccessWidth) :
    (m.ReadsBytewise addr w ∧ m.WritesBytewise addr w) ↔ ¬ m.ReadsPastFill addr w.bytes := by
  rw [readsBytewise_iff]
  exact and_iff_left (m.writesBytewise addr w)

/-- A single zero byte of data also reads as a whole halfword of zeros. -/
theorem not_bytewise_oneByte :
    ¬ ((new.setZeroFill [(0x2000, 0x2001)]).ReadsBytewise 0x2000 .u16 ∧
      (new.setZeroFill [(0x2000, 0x2001)]).WritesBytewise 0x2000 .u16) := by
  rintro ⟨hreads, -⟩
  have hread : (new.setZeroFill [(0x2000, 0x2001)]).read 0x2000 .u16 = .ok 0 := by
    decide
  obtain ⟨bytes, hlen, hholds, -⟩ := (hreads 0).mp hread
  obtain ⟨byte, hbyte⟩ : ∃ byte, bytes[1]? = some byte :=
    ⟨_, List.getElem?_eq_getElem (by rw [hlen]; decide)⟩
  have hfault : (new.setZeroFill [(0x2000, 0x2001)]).readU8 (0x2000 + BitVec.ofNat 64 1) =
      .error (.memoryFault 0x2001 .read) := by
    rfl
  rw [hholds 1 byte hbyte] at hfault
  cases hfault

end Memory

end Playground
