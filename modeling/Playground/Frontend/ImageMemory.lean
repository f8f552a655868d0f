/-
An image in memory: what reading the bytes of a write gives back, and a memory that holds
every write of an image.
-/
import Playground.Frontend.EmissionWalk
import Playground.Machine.Bytewise

namespace Playground

open Spans

namespace Memory

theorem readU32_wordBytes {m : Memory} {addr : Word} {word : BitVec 32}
    (h : m.Holds (addr, wordBytes word)) : m.readU32 addr = .ok word := by
  have hread := readLe_leBytes (k := 4) (by decide) (Nat.le_refl 4) (by decide) h
  have hlt := word.isLt
  rw [readU32, hread, Nat.mod_eq_of_lt (by omega)]
  simp [Except.map]

end Memory

/-- The byte that the writes put at an address. -/
def byteAt (writes : List (Word × List Byte)) (addr : Word) : Byte :=
  (writes.findSome? fun w =>
    if w.1.toNat ≤ addr.toNat then w.2[addr.toNat - w.1.toNat]? else none).getD 0

/-- Writes apart from each other each get their bytes. -/
theorem byteAt_of_mem {writes : List (Word × List Byte)} {w : Word × List Byte} {addr : Word}
    {i : Nat} {byte : Byte} (hapart : (writes.map writeSpan).Pairwise Apart) (hw : w ∈ writes)
    (hbyte : w.2[i]? = some byte) (haddr : addr.toNat = w.1.toNat + i) :
    byteAt writes addr = byte := by
  have hfound : (if w.1.toNat ≤ addr.toNat then w.2[addr.toNat - w.1.toNat]? else none) =
      some byte := by
    rw [if_pos (by omega), haddr, Nat.add_sub_cancel_left]
    exact hbyte
  have hi := (List.getElem?_eq_some_iff.mp hbyte).1
  unfold byteAt
  induction writes with
  | nil => simp at hw
  | cons other writes ih =>
      rw [List.map_cons, List.pairwise_cons] at hapart
      rcases List.mem_cons.mp hw with rfl | hw
      · rw [List.findSome?_cons, hfound]
        rfl
      · -- the address is not in a write before
        have hnone : (if other.1.toNat ≤ addr.toNat then
            other.2[addr.toNat - other.1.toNat]? else none) = none := by
          have hne := hapart.1 (writeSpan w) (List.mem_map_of_mem hw)
          split
          · rw [List.getElem?_eq_none_iff]
            rcases hne with hne | hne
            · simp only [writeSpan] at hne
              omega
            · simp only [writeSpan] at hne
              omega
          · rfl
        rw [List.findSome?_cons, hnone]
        exact ih hapart.2 hw

def codePageBases : List Word :=
  (List.range 256).map fun i => SectionKind.text.addr (i * 4096)

/-- Pages at the given bases, with the bytes of a function on addresses. -/
def pagesAt (bases : List Word) (byte : Word → Byte) : Pages :=
  (bases.map fun base =>
    (⟨base, fun off => byte (base + off.setWidth 64)⟩ : Sigma fun _ : Word => Page)).toFinmap

theorem lookup_pagesAt {bases : List Word} {base : Word} (h : base ∈ bases) (byte : Word → Byte) :
    (pagesAt bases byte).lookup base = some fun off => byte (base + off.setWidth 64) := by
  rw [pagesAt, Finmap.dlookup_list_toFinmap]
  induction bases with
  | nil => simp at h
  | cons other bases ih =>
      by_cases heq : base = other
      · subst heq
        exact List.dlookup_cons_eq _ _ _
      · rw [List.map_cons, List.dlookup_cons_ne _ _ heq]
        exact ih ((List.mem_cons.mp h).resolve_left heq)

/-- A memory with the code window mapped and the writes' bytes in it. -/
def imageMemory (writes : List (Word × List Byte)) : Memory :=
  { Memory.new with pages := pagesAt codePageBases (byteAt writes) }

theorem pageBase_mem_codePageBases {addr : Word} (hlo : SectionKind.text.start ≤ addr.toNat)
    (hhi : addr.toNat < SectionKind.text.start + sectionWindow) :
    pageBase addr ∈ codePageBases := by
  have hstart : SectionKind.text.start = 0x400000 := rfl
  have hwindow : sectionWindow = 0x100000 := rfl
  refine List.mem_map.mpr ⟨(addr.toNat - 0x400000) / 4096, List.mem_range.mpr (by omega), ?_⟩
  apply BitVec.eq_of_toNat_eq
  rw [SectionKind.text.toNat_addr (by omega), pageBase_toNat]
  omega

theorem pageBase_add_pageOffset (addr : Word) :
    pageBase addr + (pageOffset addr).setWidth 64 = addr := by
  apply BitVec.eq_of_toNat_eq
  have hlt := addr.isLt
  rw [BitVec.toNat_add, BitVec.toNat_setWidth, pageBase_toNat, pageOffset_toNat]
  omega

/-- Writes apart from each other are all there, as far as they go to the code window. -/
theorem holds_imageMemory {writes : List (Word × List Byte)} {w : Word × List Byte}
    (hapart : (writes.map writeSpan).Pairwise Apart) (hw : w ∈ writes)
    (hinside : Inside SectionKind.text.start (SectionKind.text.start + sectionWindow)
      (writeSpan w)) : (imageMemory writes).Holds w := by
  intro i byte hbyte
  have hi := (List.getElem?_eq_some_iff.mp hbyte).1
  have hstart : SectionKind.text.start = 0x400000 := rfl
  have hwindow : sectionWindow = 0x100000 := rfl
  obtain ⟨hlo, hhi⟩ := hinside
  simp only [writeSpan] at hlo hhi
  have haddr : (w.1 + BitVec.ofNat 64 i).toNat = w.1.toNat + i := by
    rw [BitVec.toNat_add, BitVec.toNat_ofNat]
    omega
  have hbase : pageBase (w.1 + BitVec.ofNat 64 i) ∈ codePageBases :=
    pageBase_mem_codePageBases (by omega) (by omega)
  unfold Memory.readU8 Memory.getPage
  rw [imageMemory, lookup_pagesAt hbase]
  show Except.ok (byteAt writes (pageBase (w.1 + BitVec.ofNat 64 i) +
    (pageOffset (w.1 + BitVec.ofNat 64 i)).setWidth 64)) = _
  rw [pageBase_add_pageOffset, byteAt_of_mem hapart hw hbyte haddr]

end Playground
