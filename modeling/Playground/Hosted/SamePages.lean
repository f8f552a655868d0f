/-
Memories with the same pages, whatever has been logged and counted on the way, and stores made
once more over what they left.
-/
import Playground.Hosted.Realloc

namespace Playground

namespace Memory

/-- The same bytes at every address, and the same room for more. -/
structure SamePages (m m' : Memory) : Prop where
  pages : m'.pages = m.pages
  zeroFill : m'.zeroFill = m.zeroFill

namespace SamePages

variable {m m' : Memory}

theorem refl (m : Memory) : SamePages m m := ⟨rfl, rfl⟩

theorem symm (h : SamePages m m') : SamePages m' m := ⟨h.pages.symm, h.zeroFill.symm⟩

theorem getPage (h : SamePages m m') (addr : Word) : m'.getPage addr = m.getPage addr := by
  unfold Memory.getPage inZeroFill
  rw [h.pages, h.zeroFill]

theorem readU8 (h : SamePages m m') (addr : Word) : m'.readU8 addr = m.readU8 addr := by
  unfold Memory.readU8
  rw [h.getPage]

theorem readEach (h : SamePages m m') (addr : Word) (n : Nat) :
    m'.readEach addr n = m.readEach addr n := by
  induction n generalizing addr with
  | zero => rfl
  | succ n ih => simp only [Memory.readEach, h.readU8, ih]

theorem readU64 (h : SamePages m m') (addr : Word) : m'.readU64 addr = m.readU64 addr := by
  unfold Memory.readU64 Memory.readLe
  rw [h.readEach, h.getPage]

theorem writeInPage (h : SamePages m m') (addr : Word) (bytes : List Byte) :
    SamePages (m.writeInPage addr bytes).1 (m'.writeInPage addr bytes).1 ∧
      (m'.writeInPage addr bytes).2 = (m.writeInPage addr bytes).2 := by
  unfold Memory.writeInPage mappedPageCount pageOrMap storeInPage noteWrite
  rw [h.pages]
  dsimp only
  split
  · exact ⟨h, rfl⟩
  · split
    · refine ⟨⟨?_, h.zeroFill⟩, rfl⟩
      simp only [h.pages]
    · exact ⟨⟨rfl, h.zeroFill⟩, rfl⟩

theorem writeBytes (h : SamePages m m') (addr : Word) (bytes : List Byte) :
    SamePages (m.writeBytes addr bytes).1 (m'.writeBytes addr bytes).1 ∧
      (m'.writeBytes addr bytes).2 = (m.writeBytes addr bytes).2 := by
  induction bytes generalizing m m' addr with
  | nil => exact ⟨h, rfl⟩
  | cons byte bytes ih =>
      have hwrite := h.writeInPage addr [byte]
      unfold Memory.writeBytes
      generalize m.writeInPage addr [byte] = first at hwrite ⊢
      generalize m'.writeInPage addr [byte] = first' at hwrite ⊢
      obtain ⟨m₁, result⟩ := first
      obtain ⟨m₁', result'⟩ := first'
      obtain ⟨hsame, rfl⟩ := hwrite
      cases result' with
      | ok _ => exact ih hsame (addr + 1)
      | error e => exact ⟨hsame, rfl⟩

theorem writeLe (h : SamePages m m') (addr : Word) (bytes : List Byte) :
    SamePages (m.writeLe addr bytes).1 (m'.writeLe addr bytes).1 ∧
      (m'.writeLe addr bytes).2 = (m.writeLe addr bytes).2 := by
  unfold Memory.writeLe
  split
  · exact h.writeBytes addr bytes
  · exact h.writeInPage addr bytes

end SamePages

/-- Write one span after another, up to the first that faults. -/
def writeEach (m : Memory) : List (Word × List Byte) → Memory × Except EmuError Unit
  | [] => (m, .ok ())
  | w :: ws =>
      match m.writeLe w.1 w.2 with
      | (m, .ok ()) => m.writeEach ws
      | (m, .error e) => (m, .error e)

theorem SamePages.writeEach {m m' : Memory} (h : SamePages m m') (ws : List (Word × List Byte)) :
    SamePages (m.writeEach ws).1 (m'.writeEach ws).1 ∧
      (m'.writeEach ws).2 = (m.writeEach ws).2 := by
  induction ws generalizing m m' with
  | nil => exact ⟨h, rfl⟩
  | cons w ws ih =>
      have hwrite := h.writeLe w.1 w.2
      unfold Memory.writeEach
      generalize m.writeLe w.1 w.2 = first at hwrite ⊢
      generalize m'.writeLe w.1 w.2 = first' at hwrite ⊢
      obtain ⟨m₁, result⟩ := first
      obtain ⟨m₁', result'⟩ := first'
      obtain ⟨hsame, rfl⟩ := hwrite
      cases result' with
      | ok _ => exact ih hsame
      | error e => exact ⟨hsame, rfl⟩

theorem keeps_writeEach {m m' : Memory} {ws : List (Word × List Byte)}
    (hsizes : ∀ w ∈ ws, 0 < w.2.length ∧ w.2.length ≤ 16) (h : m.writeEach ws = (m', .ok ())) :
    (∀ base ∈ m.pages, base ∈ m'.pages) ∧ m'.zeroFill = m.zeroFill := by
  induction ws generalizing m with
  | nil =>
      cases h
      exact ⟨fun _ => id, rfl⟩
  | cons w ws ih =>
      obtain ⟨hpos, hlen⟩ := hsizes w List.mem_cons_self
      rcases hfirst : m.writeLe w.1 w.2 with ⟨first, ⟨e⟩ | ⟨⟩⟩
      · rw [writeEach, hfirst] at h
        cases h
      · rw [writeEach, hfirst] at h
        have hwritten := written_of_writeLe hpos hlen hfirst
        obtain ⟨hkeeps, hzero⟩ := ih (fun w hw => hsizes w (List.mem_cons_of_mem _ hw)) h
        exact ⟨fun base hbase => hkeeps base (hwritten.keeps base hbase),
          hzero.trans hwritten.zeroFill⟩

section Reads

variable {m m' : Memory} {addr : Word}

theorem isMapped_of_readU8_eq (h : m'.readU8 addr = m.readU8 addr) :
    m'.isMapped addr = m.isMapped addr := by
  rw [Bool.eq_iff_iff]
  constructor
  · intro hmapped
    have hread := (readU8_eq_ok_iff m' addr _).mpr ⟨hmapped, rfl⟩
    rw [h] at hread
    exact ((readU8_eq_ok_iff m addr _).mp hread).1
  · intro hmapped
    have hread := (readU8_eq_ok_iff m addr _).mpr ⟨hmapped, rfl⟩
    rw [← h] at hread
    exact ((readU8_eq_ok_iff m' addr _).mp hread).1

theorem peek_of_readU8_eq (h : m'.readU8 addr = m.readU8 addr) :
    peek m'.pages addr = peek m.pages addr := by
  have hsame := isMapped_of_readU8_eq h
  cases hmapped : m.isMapped addr with
  | true =>
      have hread := (readU8_eq_ok_iff m' addr _).mpr ⟨hsame.trans hmapped, rfl⟩
      rw [h] at hread
      exact ((readU8_eq_ok_iff m addr _).mp hread).2
  | false =>
      have hzero : ∀ {m : Memory}, m.isMapped addr = false → peek m.pages addr = 0 := by
        intro m hmapped
        have hnot : pageBase addr ∉ m.pages := fun hmem => by
          rw [(isMapped_iff m addr).mpr (.inl hmem)] at hmapped
          cases hmapped
        unfold peek
        rw [Finmap.lookup_eq_none.mpr hnot]
      rw [hzero hmapped, hzero (hsame.trans hmapped)]

theorem readLe_ok_of_readU8_eq {n : Nat} (hpos : 0 < n) (hn : n ≤ 16)
    (h : ∀ i < n, m'.readU8 (addr + BitVec.ofNat 64 i) = m.readU8 (addr + BitVec.ofNat 64 i))
    (v : Nat) : m'.readLe addr n = .ok v ↔ m.readLe addr n = .ok v := by
  have hpeek : ∀ {addr : Word} {n : Nat},
      (∀ i < n, m'.readU8 (addr + BitVec.ofNat 64 i) = m.readU8 (addr + BitVec.ofNat 64 i)) →
      peekAll m'.pages addr n = peekAll m.pages addr n :=
    fun h => peekAll_congr fun i hi => peek_of_readU8_eq (h i hi)
  cases hspan : spansPage addr n with
  | true =>
      rw [readLe_spans hspan, readLe_spans hspan]
      refine exists_congr fun bytes => and_congr_right fun hlen => and_congr_left fun _ => ?_
      refine forall_congr' fun i => forall_congr' fun byte => imp_congr_right fun hbyte => ?_
      rw [h i (hlen ▸ (List.getElem?_eq_some_iff.mp hbyte).1)]
  | false =>
      have hfirst := h 0 hpos
      rw [BitVec.add_zero] at hfirst
      rw [readLe_inPage hpos hn hspan, readLe_inPage hpos hn hspan, isMapped_of_readU8_eq hfirst,
        hpeek h]

end Reads

end Memory

section Pages

variable {last p q : Pages} {addr : Word}

/-- One byte of the page table, zero where no page is mapped. -/
def cell (p : Pages) (base : Word) (off : BitVec 12) : Byte := (p.lookup base).elim 0 (· off)

theorem cell_poke (p : Pages) (addr : Word) (byte : Byte) (base : Word) (off : BitVec 12) :
    cell (poke p addr byte) base off =
      if base = pageBase addr ∧ off = pageOffset addr ∧ base ∈ p then byte
      else cell p base off := by
  unfold cell
  rw [lookup_poke]
  by_cases hbase : base = pageBase addr
  · rw [if_pos hbase]
    cases hpage : p.lookup base with
    | none =>
        have hnot : base ∉ p := Finmap.lookup_eq_none.mp hpage
        rw [if_neg fun h => hnot h.2.2]
        rfl
    | some page =>
        have hmem : base ∈ p := Finmap.mem_of_lookup_eq_some hpage
        by_cases hoff : off = pageOffset addr
        · rw [if_pos ⟨hbase, hoff, hmem⟩, hoff]
          exact Function.update_self _ _ _
        · rw [if_neg fun h => hoff h.2.1]
          exact Function.update_of_ne hoff _ _
  · rw [if_neg hbase, if_neg fun h => hbase h.1]

/-- Mapping a page changes no byte. -/
theorem cell_insert_zeroPage {base : Word} (h : base ∉ p) (base' : Word) (off : BitVec 12) :
    cell (p.insert base zeroPage) base' off = cell p base' off := by
  unfold cell
  by_cases heq : base' = base
  · rw [heq, Finmap.lookup_insert, Finmap.lookup_eq_none.mpr h]
    rfl
  · rw [Finmap.lookup_insert_of_ne _ heq]

/-- `p` is on its way to `last`, and `q` is `last` with the same stores made over it: each of
its bytes is what it is in `p` by now, or still what it is in `last`. -/
structure CatchesUp (last p q : Pages) : Prop where
  mapped : ∀ base, base ∈ q ↔ base ∈ last
  below : ∀ base ∈ p, base ∈ last
  cell : ∀ base off, cell q base off = cell p base off ∨ cell q base off = cell last base off

namespace CatchesUp

theorem start (h : ∀ base ∈ p, base ∈ last) : CatchesUp last p last :=
  ⟨fun _ => Iff.rfl, h, fun _ _ => .inr rfl⟩

/-- Once the stores are done the two agree. -/
theorem eq (h : CatchesUp last last q) : q = last := by
  apply Finmap.ext_lookup
  intro base
  have hcell := fun off => (h.cell base off).elim id id
  unfold Playground.cell at hcell
  cases hlast : last.lookup base with
  | none => exact Finmap.lookup_eq_none.mpr fun hmem =>
      Finmap.lookup_eq_none.mp hlast ((h.mapped base).mp hmem)
  | some page =>
      obtain ⟨page', hpage'⟩ :=
        Finmap.mem_iff.mp ((h.mapped base).mpr (Finmap.mem_of_lookup_eq_some hlast))
      rw [hlast, hpage'] at hcell
      rw [hpage']
      exact congrArg some (funext hcell)

theorem insert (h : CatchesUp last p q) {base : Word} (hnew : base ∉ p) (hbase : base ∈ last) :
    CatchesUp last (p.insert base zeroPage) q := by
  refine ⟨h.mapped, fun base' hmem => ?_, fun base' off => ?_⟩
  · rcases Finmap.mem_insert.mp hmem with rfl | hmem
    · exact hbase
    · exact h.below base' hmem
  · rw [cell_insert_zeroPage hnew]
    exact h.cell base' off

theorem poke (h : CatchesUp last p q) (hmem : pageBase addr ∈ p) (byte : Byte) :
    CatchesUp last (poke p addr byte) (poke q addr byte) := by
  refine ⟨fun base => ?_, fun base hbase => ?_, fun base off => ?_⟩
  · rw [mem_poke]
    exact h.mapped base
  · rw [mem_poke] at hbase
    exact h.below base hbase
  · rw [cell_poke, cell_poke]
    by_cases hat : base = pageBase addr ∧ off = pageOffset addr
    · have hq : base ∈ q := (h.mapped base).mpr (h.below base (hat.1 ▸ hmem))
      rw [if_pos ⟨hat.1, hat.2, hq⟩, if_pos ⟨hat.1, hat.2, hat.1 ▸ hmem⟩]
      exact .inl rfl
    · rw [if_neg fun h => hat ⟨h.1, h.2.1⟩, if_neg fun h => hat ⟨h.1, h.2.1⟩]
      exact h.cell base off

theorem pokeAll {bytes : List Byte} (h : CatchesUp last p q)
    (hmem : ∀ i < bytes.length, pageBase (addr + BitVec.ofNat 64 i) ∈ p) :
    CatchesUp last (pokeAll p addr bytes) (pokeAll q addr bytes) := by
  induction bytes generalizing p q addr with
  | nil => exact h
  | cons byte bytes ih =>
      have hhead := hmem 0 (Nat.succ_pos _)
      rw [BitVec.add_zero] at hhead
      refine ih (h.poke hhead byte) fun i hi => ?_
      rw [mem_poke, add_one_add_ofNat]
      exact hmem (i + 1) (by simpa using hi)

end CatchesUp

end Pages

namespace CatchesUp

variable {last : Pages} {m m₁ m' : Memory} {addr : Word}

open Memory

/-- The page of a write that has been made once is there for the second one. -/
theorem writeInPage {bytes : List Byte} (h : CatchesUp last m.pages m'.pages)
    (hfits : (pageOffset addr).toNat + bytes.length ≤ 4096)
    (hwrite : m.writeInPage addr bytes = (m₁, .ok ())) (hbelow : ∀ base ∈ m₁.pages, base ∈ last) :
    ∃ m₁', m'.writeInPage addr bytes = (m₁', .ok ()) ∧ CatchesUp last m₁.pages m₁'.pages ∧
      m₁'.zeroFill = m'.zeroFill := by
  rcases m.writeInPage_cases addr bytes hfits with ⟨hrefused, -⟩ | ⟨m₂, hdone, hwrote⟩
  · rw [hrefused] at hwrite
    cases hwrite
  rw [hdone] at hwrite
  cases hwrite
  obtain ⟨p, hp, hpages, -⟩ := hwrote.pages
  have hmem : pageBase addr ∈ p := by
    rcases hp with ⟨hmem, rfl⟩ | ⟨-, rfl⟩
    · exact hmem
    · exact Finmap.mem_insert.mpr (.inl rfl)
  have hlast : pageBase addr ∈ last := by
    apply hbelow
    rw [hpages, ← Finmap.mem_keys, keys_pokeAll, Finmap.mem_keys]
    exact hmem
  have hmapped : CatchesUp last p m'.pages := by
    rcases hp with ⟨-, rfl⟩ | ⟨hnew, rfl⟩
    · exact h
    · exact h.insert hnew hlast
  obtain ⟨m₁', hdone', hpages', -, hzero⟩ :=
    writeInPage_pages bytes hfits ((h.mapped _).mpr hlast)
  refine ⟨m₁', hdone', ?_, hzero⟩
  rw [hpages, hpages']
  apply hmapped.pokeAll
  intro i hi
  rw [pageBase_add_of_fits hfits hi]
  exact hmem

theorem writeBytes {bytes : List Byte} (h : CatchesUp last m.pages m'.pages)
    (hlen : bytes.length ≤ 2 ^ 64) (hwrite : m.writeBytes addr bytes = (m₁, .ok ()))
    (hbelow : ∀ base ∈ m₁.pages, base ∈ last) :
    ∃ m₁', m'.writeBytes addr bytes = (m₁', .ok ()) ∧ CatchesUp last m₁.pages m₁'.pages ∧
      m₁'.zeroFill = m'.zeroFill := by
  induction bytes generalizing m m' addr with
  | nil =>
      cases hwrite
      exact ⟨m', rfl, h, rfl⟩
  | cons byte bytes ih =>
      rw [List.length_cons] at hlen
      have hfits : (pageOffset addr).toNat + [byte].length ≤ 4096 := (pageOffset addr).isLt
      rcases hfirst : m.writeInPage addr [byte] with ⟨first, ⟨e⟩ | ⟨⟩⟩
      · rw [Memory.writeBytes, hfirst] at hwrite
        cases hwrite
      · rw [Memory.writeBytes, hfirst] at hwrite
        have hkeeps := (written_of_writeBytes (by omega) hwrite).keeps
        obtain ⟨first', hfirst', hcatch, hzero⟩ :=
          h.writeInPage hfits hfirst fun base hbase => hbelow base (hkeeps base hbase)
        obtain ⟨m₁', hrest, hcatch', hzero'⟩ := ih hcatch (by omega) hwrite
        refine ⟨m₁', ?_, hcatch', hzero'.trans hzero⟩
        rw [Memory.writeBytes, hfirst']
        exact hrest

theorem writeLe {bytes : List Byte} (h : CatchesUp last m.pages m'.pages)
    (hpos : 0 < bytes.length) (hlen : bytes.length ≤ 16)
    (hwrite : m.writeLe addr bytes = (m₁, .ok ())) (hbelow : ∀ base ∈ m₁.pages, base ∈ last) :
    ∃ m₁', m'.writeLe addr bytes = (m₁', .ok ()) ∧ CatchesUp last m₁.pages m₁'.pages ∧
      m₁'.zeroFill = m'.zeroFill := by
  unfold Memory.writeLe at hwrite ⊢
  split
  · rename_i hspan
    rw [if_pos hspan] at hwrite
    exact h.writeBytes (by omega) hwrite hbelow
  · rename_i hspan
    rw [if_neg hspan] at hwrite
    have hfits := offset_add_le_of_not_spansPage hpos hlen (by simpa using hspan)
    exact h.writeInPage hfits hwrite hbelow

theorem writeEach {ws : List (Word × List Byte)} (h : CatchesUp last m.pages m'.pages)
    (hsizes : ∀ w ∈ ws, 0 < w.2.length ∧ w.2.length ≤ 16)
    (hwrite : m.writeEach ws = (m₁, .ok ())) (hbelow : ∀ base ∈ m₁.pages, base ∈ last) :
    ∃ m₁', m'.writeEach ws = (m₁', .ok ()) ∧ CatchesUp last m₁.pages m₁'.pages ∧
      m₁'.zeroFill = m'.zeroFill := by
  induction ws generalizing m m' with
  | nil =>
      cases hwrite
      exact ⟨m', rfl, h, rfl⟩
  | cons w ws ih =>
      obtain ⟨hpos, hlen⟩ := hsizes w List.mem_cons_self
      have hrest : ∀ w ∈ ws, 0 < w.2.length ∧ w.2.length ≤ 16 :=
        fun w hw => hsizes w (List.mem_cons_of_mem _ hw)
      rcases hfirst : m.writeLe w.1 w.2 with ⟨first, ⟨e⟩ | ⟨⟩⟩
      · rw [Memory.writeEach, hfirst] at hwrite
        cases hwrite
      · rw [Memory.writeEach, hfirst] at hwrite
        have hkeeps := (keeps_writeEach hrest hwrite).1
        obtain ⟨first', hfirst', hcatch, hzero⟩ :=
          h.writeLe hpos hlen hfirst fun base hbase => hbelow base (hkeeps base hbase)
        obtain ⟨m₁', hdone, hcatch', hzero'⟩ := ih hcatch hrest hwrite
        refine ⟨m₁', ?_, hcatch', hzero'.trans hzero⟩
        rw [Memory.writeEach, hfirst']
        exact hdone

/-- A byte that is by now what it will be is read so. -/
theorem readU8 {mlast : Memory} (h : CatchesUp mlast.pages m.pages m'.pages)
    (hzero : m.zeroFill = mlast.zeroFill) (hzero' : m'.zeroFill = mlast.zeroFill)
    (hsame : m.readU8 addr = mlast.readU8 addr) : m'.readU8 addr = m.readU8 addr := by
  rw [hsame]
  have hcell := h.cell (pageBase addr) (pageOffset addr)
  unfold Memory.readU8 Memory.getPage inZeroFill Playground.cell at *
  rw [hzero] at hsame
  rw [hzero']
  cases hlast : mlast.pages.lookup (pageBase addr) with
  | none =>
      have hnone : m'.pages.lookup (pageBase addr) = none := Finmap.lookup_eq_none.mpr fun hmem =>
        Finmap.lookup_eq_none.mp hlast ((h.mapped _).mp hmem)
      rw [hnone]
  | some page =>
      obtain ⟨page', hpage'⟩ :=
        Finmap.mem_iff.mp ((h.mapped _).mpr (Finmap.mem_of_lookup_eq_some hlast))
      rw [hlast, hpage'] at hcell
      rw [hlast] at hsame
      rw [hpage']
      suffices hbyte : page' (pageOffset addr) = page (pageOffset addr) from
        congrArg Except.ok hbyte
      refine hcell.elim (fun heq => heq.trans ?_) id
      cases hpage : m.pages.lookup (pageBase addr) with
      | none =>
          rw [hpage] at hsame
          dsimp only at hsame
          split at hsame
          · exact Except.ok.inj hsame
          · cases hsame
      | some page₁ =>
          rw [hpage] at hsame
          exact Except.ok.inj hsame

end CatchesUp

end Playground
