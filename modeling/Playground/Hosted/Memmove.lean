/-
`memmove` copies from the end that keeps the bytes still to be read: forwards onto a lower
address, backwards onto a higher one.
-/
import Playground.Hosted.Realloc

namespace Playground

namespace Memory

variable {m m' m'' : Memory}

/-- The bytes of a span, and before it the span that stands in front of it. -/
theorem Written.snoc {addr : Word} {byte : Byte} {bytes : List Byte}
    (hlen : bytes.length < 2 ^ 64)
    (hlast : Written m (addr + BitVec.ofNat 64 bytes.length) [byte] m')
    (hfront : Written m' addr bytes m'') : Written m addr (bytes ++ [byte]) m'' := by
  refine ⟨?_, ?_, ?_, hfront.zeroFill.trans hlast.zeroFill⟩
  · intro a
    rw [hfront.changed, hlast.changed]
    have hsub : a - (addr + BitVec.ofNat 64 bytes.length) =
        a - addr - BitVec.ofNat 64 bytes.length := by
      rw [BitVec.sub_sub]
    rw [hsub]
    generalize a - addr = d
    have hd := d.isLt
    have hsize : (BitVec.ofNat 64 bytes.length).toNat = bytes.length := by
      rw [BitVec.toNat_ofNat, Nat.mod_eq_of_lt hlen]
    rcases Nat.lt_or_ge d.toNat bytes.length with hin | hout
    · rw [List.getD_append _ _ _ _ hin, List.getD_eq_getElem _ _ hin, List.getD_eq_getElem _ _ hin]
    · have hback : (d - BitVec.ofNat 64 bytes.length).toNat = d.toNat - bytes.length := by
        rw [BitVec.toNat_sub, hsize]
        omega
      rw [List.getD_eq_default _ _ hout, hback, List.getD_append_right _ _ _ _ hout]
  · intro i hi
    rw [List.length_append, List.length_singleton] at hi
    rcases Nat.lt_or_eq_of_le (Nat.le_of_lt_succ hi) with hin | rfl
    · exact hfront.mapped i hin
    · have hpage := hlast.mapped 0 Nat.zero_lt_one
      rw [BitVec.add_zero] at hpage
      exact hfront.keeps _ hpage
  · intro base hbase
    exact hfront.keeps base (hlast.keeps base hbase)

theorem Written.isMapped {addr : Word} {bytes : List Byte} (h : Written m addr bytes m')
    {a : Word} (ha : m.isMapped a = true) : m'.isMapped a = true := by
  rw [isMapped_iff] at ha ⊢
  rcases ha with hpage | hfill
  · exact .inl (h.keeps _ hpage)
  · right
    unfold inZeroFill
    rw [h.zeroFill]
    exact hfill

theorem peekAll_succ_last (p : Pages) (addr : Word) (n : Nat) :
    peekAll p addr (n + 1) = peekAll p addr n ++ [peek p (addr + BitVec.ofNat 64 n)] := by
  induction n generalizing addr with
  | zero => simp [peekAll]
  | succ n ih =>
      rw [peekAll, ih, peekAll, add_one_add_ofNat]
      rfl

/-- The pages under `n` bytes are mapped, or the page budget has room for them. -/
def Room (m : Memory) (addr : Word) (n : Nat) : Prop :=
  (∀ i < n, pageBase (addr + BitVec.ofNat 64 i) ∈ m.pages) ∨
    (m.mappedAfter addr n).card ≤ maxMappedPages

theorem mappedAfter_mono {addr : Word} {i n : Nat} (h : i ≤ n) :
    m.mappedAfter addr i ⊆ m.mappedAfter addr n := by
  apply Finset.union_subset_union_right
  apply Finset.image_subset_image
  exact Finset.range_subset_range.mpr h

theorem Room.byte {addr : Word} {n i : Nat} (h : m.Room addr n) (hi : i < n) :
    pageBase (addr + BitVec.ofNat 64 i) ∈ m.mappedAfter addr i ∨
      (m.mappedAfter addr i).card < maxMappedPages := by
  rcases h with hall | hroom
  · left
    exact Finset.mem_union_left _ (Finmap.mem_keys.mpr (hall i hi))
  · by_cases hin : pageBase (addr + BitVec.ofNat 64 i) ∈ m.mappedAfter addr i
    · exact .inl hin
    · right
      have hnew : pageBase (addr + BitVec.ofNat 64 i) ∈ m.mappedAfter addr n :=
        Finset.mem_union_right _ (Finset.mem_image.mpr ⟨i, Finset.mem_range.mpr hi, rfl⟩)
      have hlt : m.mappedAfter addr i ⊂ m.mappedAfter addr n :=
        Finset.ssubset_iff_of_subset (mappedAfter_mono hi.le) |>.mpr ⟨_, hnew, hin⟩
      exact (Finset.card_lt_card hlt).trans_le hroom

/-- The last byte is written first. -/
theorem Room.last {addr : Word} {n : Nat} (h : m.Room addr (n + 1)) (byte : Byte) :
    (m.writeU8 (addr + BitVec.ofNat 64 n) byte).2 = .ok () := by
  rw [writeU8_ok_iff]
  rcases h with hall | hroom
  · exact .inl (hall n (Nat.lt_succ_self n))
  · by_cases hin : pageBase (addr + BitVec.ofNat 64 n) ∈ m.pages
    · exact .inl hin
    · right
      have hnew : pageBase (addr + BitVec.ofNat 64 n) ∈ m.mappedAfter addr (n + 1) :=
        Finset.mem_union_right _
          (Finset.mem_image.mpr ⟨n, Finset.mem_range.mpr (Nat.lt_succ_self n), rfl⟩)
      have hlt : m.pages.keys ⊂ m.mappedAfter addr (n + 1) :=
        Finset.ssubset_iff_of_subset Finset.subset_union_left |>.mpr
          ⟨_, hnew, fun hmem => hin (Finmap.mem_keys.mp hmem)⟩
      exact (Finset.card_lt_card hlt).trans_le hroom

theorem Room.front {addr : Word} {n : Nat} (h : m.Room addr (n + 1))
    (hkeys : m'.pages.keys = insert (pageBase (addr + BitVec.ofNat 64 n)) m.pages.keys) :
    m'.Room addr n := by
  rcases h with hall | hroom
  · left
    intro i hi
    rw [← Finmap.mem_keys, hkeys]
    exact Finset.mem_insert_of_mem (Finmap.mem_keys.mpr (hall i (by omega)))
  · right
    have hsub : m'.mappedAfter addr n ⊆ m.mappedAfter addr (n + 1) := by
      unfold mappedAfter
      rw [hkeys]
      intro base hbase
      rw [Finset.mem_union, Finset.mem_insert] at hbase
      rcases hbase with (rfl | hmem) | himage
      · exact Finset.mem_union_right _
          (Finset.mem_image.mpr ⟨n, Finset.mem_range.mpr (Nat.lt_succ_self n), rfl⟩)
      · exact Finset.mem_union_left _ hmem
      · exact Finset.mem_union_right _
          (Finset.image_subset_image (Finset.range_subset_range.mpr n.le_succ) himage)
    exact (Finset.card_le_card hsub).trans hroom

end Memory

namespace Hosted

open Exec Memory

/-- Copy `n` bytes, one at a time and the last one first. -/
def copyBytesBack (source dest : Word) : Nat → Exec Unit
  | 0 => pure ()
  | n + 1 => do
      let b ← readU8 (source + BitVec.ofNat 64 n)
      writeU8 (dest + BitVec.ofNat 64 n) b
      copyBytesBack source dest n

/-- The overlap-safe copy. -/
def memmove : Exec HostOutcome := do
  let dst ← readGpr 0 true
  let src ← readGpr 1 true
  let n ← readGpr 2 true
  if dst < src then copyBytes src dst n.toNat
  else copyBytesBack src dst n.toNat
  answer dst

/-- A backward copy that overwrites no byte it has still to read. -/
theorem copyBytesBack_behind {source dest : Word} {n : Nat} {m : Machine} (hn : n < 2 ^ 64)
    (hmapped : ∀ i < n, m.mem.isMapped (source + BitVec.ofNat 64 i) = true)
    (hroom : m.mem.Room dest n)
    (hahead : ∀ i < n, ∀ j < i, source + BitVec.ofNat 64 j ≠ dest + BitVec.ofNat 64 i) :
    ((copyBytesBack source dest n).run m).2 = .ok () ∧
      Written m.mem dest (peekAll m.mem.pages source n)
        ((copyBytesBack source dest n).run m).1.mem := by
  induction n generalizing m with
  | zero => exact ⟨rfl, fun a => rfl, fun i hi => absurd hi (Nat.not_lt_zero i), fun _ => id, rfl⟩
  | succ n ih =>
      have hread := (m.mem.readU8_eq_ok_iff (source + BitVec.ofNat 64 n) _).mpr
        ⟨hmapped n (Nat.lt_succ_self n), rfl⟩
      have hwrite := hroom.last (peek m.mem.pages (source + BitVec.ofNat 64 n))
      have hlast := written_writeU8 hwrite
      rw [copyBytesBack, run_bind, Exec.readU8, run_attempt, hread]
      simp only
      rw [run_bind, Exec.writeU8, run_store, hwrite]
      simp only
      have hsame : peekAll (m.mem.writeU8 (dest + BitVec.ofNat 64 n)
          (peek m.mem.pages (source + BitVec.ofNat 64 n))).1.pages source n =
          peekAll m.mem.pages source n := by
        apply peekAll_congr
        intro i hi
        rw [hlast.changed, List.getD_eq_default]
        have hne := hahead n (Nat.lt_succ_self n) i hi
        refine Nat.pos_iff_ne_zero.mpr fun hzero => hne ?_
        have hsub : source + BitVec.ofNat 64 i - (dest + BitVec.ofNat 64 n) = 0 :=
          BitVec.eq_of_toNat_eq hzero
        exact sub_eq_zero.mp hsub
      obtain ⟨hok, hrest⟩ := ih (by omega)
        (m := MachineCall.run m (.mem (.writeU8 (dest + BitVec.ofNat 64 n)
          (peek m.mem.pages (source + BitVec.ofNat 64 n)))))
        (fun i hi => hlast.isMapped (hmapped i (by omega))) (hroom.front (keys_writeU8 hwrite))
        (fun i hi j hj => hahead i (by omega) j hj)
      refine ⟨hok, ?_⟩
      have hmem : (MachineCall.run m (.mem (.writeU8 (dest + BitVec.ofNat 64 n)
          (peek m.mem.pages (source + BitVec.ofNat 64 n))))).mem =
          (m.mem.writeU8 (dest + BitVec.ofNat 64 n)
            (peek m.mem.pages (source + BitVec.ofNat 64 n))).1 := rfl
      rw [hmem, hsame] at hrest
      rw [peekAll_succ_last]
      refine Written.snoc (by rw [length_peekAll]; omega) ?_ hrest
      rw [length_peekAll]
      exact hlast

/-- A forward copy that overwrites no byte it has still to read. -/
theorem copyBytes_ahead {source dest : Word} {n : Nat} {m : Machine} (hn : n < 2 ^ 64)
    (hmapped : ∀ i < n, m.mem.isMapped (source + BitVec.ofNat 64 i) = true)
    (hroom : m.mem.Room dest n)
    (hahead : ∀ i < n, ∀ j < i, source + BitVec.ofNat 64 i ≠ dest + BitVec.ofNat 64 j) :
    ((copyBytes source dest n).run m).2 = .ok () ∧
      Written m.mem dest (peekAll m.mem.pages source n)
        ((copyBytes source dest n).run m).1.mem := by
  have hok : ((copyBytes source dest n).run m).2 = .ok () := by
    rw [copyBytes_ok_iff]
    intro i hi
    refine ⟨?_, hroom.byte hi⟩
    have hsource := hmapped i hi
    rw [isMapped_iff] at hsource
    exact hsource.imp_left fun hpage => Finset.mem_union_left _ (Finmap.mem_keys.mpr hpage)
  exact ⟨hok, written_copyBytes_ahead hn.le hahead hok⟩

/-- What moving `n` bytes is to do: each loads at its new place as it loaded at its old one
before, every other address loads as before, and x0 is the destination. -/
structure Moves (m m' : Machine) (dst src : Word) (n : Nat) : Prop where
  moved : ∀ i < n, SameLoad m.mem m'.mem (src + BitVec.ofNat 64 i) (dst + BitVec.ofNat 64 i)
  others : ∀ a, (∀ i < n, a ≠ dst + BitVec.ofNat 64 i) → SameLoad m.mem m'.mem a a
  answer : m'.regs.gprValue 0 true = dst

theorem moves_of_written {m m' : Machine} {dst src : Word} {n : Nat} (hn : n < 2 ^ 64)
    (h : Written m.mem dst (peekAll m.mem.pages src n) m'.mem)
    (hx0 : m'.regs.gprValue 0 true = dst) : Moves m m' dst src n := by
  have hlen : (peekAll m.mem.pages src n).length = n := length_peekAll _ _ _
  refine ⟨fun i hi byte hread => ?_, fun a ha byte hread => ?_, hx0⟩
  · obtain ⟨-, rfl⟩ := (m.mem.readU8_eq_ok_iff _ byte).mp hread
    exact h.holds (by omega) i _ (getElem?_peekAll hi)
  · refine h.readU8 ?_ hread
    rw [hlen]
    by_contra hin
    apply ha (a - dst).toNat (by omega)
    rw [BitVec.ofNat_toNat, BitVec.setWidth_eq]
    exact (add_sub_cancel dst a).symm

theorem add_ofNat_ne {a b : Word} {i j n : Nat} (ha : a.toNat + n ≤ 2 ^ 64)
    (hb : b.toNat + n ≤ 2 ^ 64) (hi : i < n) (hj : j < n)
    (hne : a.toNat + i ≠ b.toNat + j) : a + BitVec.ofNat 64 i ≠ b + BitVec.ofNat 64 j := by
  intro h
  have heq := congrArg BitVec.toNat h
  rw [BitVec.toNat_add, BitVec.toNat_add, BitVec.toNat_ofNat, BitVec.toNat_ofNat] at heq
  omega

/-- `memmove` once it has read its arguments. -/
def moveBytes (dst src : Word) (n : Nat) : Exec HostOutcome := do
  if dst < src then copyBytes src dst n
  else copyBytesBack src dst n
  answer dst

theorem run_memmove (m : Machine) :
    ∃ regs, memmove.run m = (moveBytes (m.regs.gprValue 0 true) (m.regs.gprValue 1 true)
      (m.regs.gprValue 2 true).toNat).run { m with regs := regs } := by
  refine ⟨(MachineCall.run (MachineCall.run (MachineCall.run m (.reg (.readGpr 0 true)))
    (.reg (.readGpr 1 true))) (.reg (.readGpr 2 true))).regs, ?_⟩
  rw [memmove, run_bind, run_readGpr]
  simp only
  rw [run_bind, run_readGpr]
  simp only [gprValue_run_readGpr]
  rw [run_bind, run_readGpr]
  simp only [gprValue_run_readGpr]
  rfl

theorem memmove_moves {m : Machine} {dst src : Word} {n : Nat}
    (hdst : m.regs.gprValue 0 true = dst) (hsrc : m.regs.gprValue 1 true = src)
    (hn : (m.regs.gprValue 2 true).toNat = n) (hsrcEnd : src.toNat + n ≤ 2 ^ 64)
    (hdstEnd : dst.toNat + n ≤ 2 ^ 64)
    (hmapped : ∀ i < n, m.mem.isMapped (src + BitVec.ofNat 64 i) = true)
    (hroom : m.mem.Room dst n) :
    ∃ m', memmove.run m = (m', .ok .continue) ∧ Moves m m' dst src n := by
  obtain ⟨regs, hrun⟩ := run_memmove m
  rw [hdst, hsrc, hn] at hrun
  have hlt : n < 2 ^ 64 := hn ▸ (m.regs.gprValue 2 true).isLt
  rw [hrun, moveBytes]
  by_cases hbelow : dst < src
  · have hnat : dst.toNat < src.toNat := hbelow
    obtain ⟨hok, hwritten⟩ := copyBytes_ahead (m := { m with regs := regs }) hlt hmapped hroom
      fun i hi j hj => add_ofNat_ne hsrcEnd hdstEnd hi (by omega) (by omega)
    rw [if_pos hbelow, run_bind_ok (Prod.ext rfl hok)]
    exact ⟨_, rfl, moves_of_written hlt hwritten (gprValue_answer dst _)⟩
  · have hnat : ¬ dst.toNat < src.toNat := hbelow
    obtain ⟨hok, hwritten⟩ := copyBytesBack_behind (m := { m with regs := regs }) hlt hmapped hroom
      fun i hi j hj => add_ofNat_ne hsrcEnd hdstEnd (by omega) hi (by omega)
    rw [if_neg hbelow, run_bind_ok (Prod.ext rfl hok)]
    exact ⟨_, rfl, moves_of_written hlt hwritten (gprValue_answer dst _)⟩

end Hosted

end Playground
