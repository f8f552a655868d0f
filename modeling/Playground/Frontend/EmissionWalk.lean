/-
Emission as the walk placement took: each item is emitted where the walk puts it, its
writes lie in the bytes it takes, and the line map lists the instruction words.
-/
import Playground.Frontend.LayoutWalk

namespace Playground

open Spans

/-- The first address of a section's window. -/
def SectionKind.start (kind : SectionKind) : Nat := kind.defaultBase.toNat

theorem SectionKind.toNat_addr (kind : SectionKind) {offset : Nat}
    (h : offset ≤ sectionWindow) : (kind.addr offset).toNat = kind.start + offset := by
  unfold sectionWindow at h
  cases kind <;> simp [addr, start, defaultBase, BitVec.toNat_add] <;> omega

theorem SectionKind.start_aligned (kind : SectionKind) : kind.start % 8 = 0 := by
  cases kind <;> decide

theorem SectionKind.windows_apart {kind kind' : SectionKind} (h : kind ≠ kind') :
    kind.start + sectionWindow ≤ kind'.start ∨ kind'.start + sectionWindow ≤ kind.start := by
  cases kind <;> cases kind' <;> first | exact absurd rfl h | decide

/-- The addresses a write covers. -/
def writeSpan (w : Word × List Byte) : Span := (w.1.toNat, w.2.length)

/-- The offsets of an item's instruction words, from its start. -/
def itemWords : Item → List Nat
  | .instruction tokens _ => if (extractLdrLabelLoad tokens).isSome then [0, 4] else [0]
  | _ => []

/-- The offsets of the instruction words among placed items. -/
def wordOffsets (entries : List (Nat × Item)) : List Nat :=
  entries.flatMap fun entry => (itemWords entry.2).map (entry.1 + ·)

theorem length_wordBytes (word : BitVec 32) : (wordBytes word).length = 4 :=
  length_leBytes 4 _

namespace Emit

variable {encodeLine : EncodeLine} {program : Program} {layout : Layout} {pool : Pool}

/-- What one emitted item gives: it moves by the item's size, its writes lie in the bytes
it takes, and its line-map entries are its instruction words. -/
structure Places (layout : Layout) (kind : SectionKind) (idx offset : Nat) (item : Item)
    (out : Emitted) : Prop where
  ends : out.offset = offset + itemSize (layout.reserveSizes kind) idx offset item
  writes : out.offset ≤ sectionWindow →
    Chained (kind.start + offset) (kind.start + out.offset) (out.writes.map writeSpan)
  lines : out.lineMap.map Prod.fst =
    ((itemWords item).map fun o => kind.addr (offset + o))
  written : ∀ entry ∈ out.lineMap, ∃ word, (entry.1, wordBytes word) ∈ out.writes
  count : out.instructionCount = out.lineMap.length
  text : out.lineMap ≠ [] → kind = .text

variable {kind : SectionKind} {offset : Nat}

theorem places_skip {idx size : Nat} {item : Item}
    (hsize : size = itemSize (layout.reserveSizes kind) idx offset item)
    (hwords : itemWords item = []) :
    Places layout kind idx offset item (.skip (offset + size)) where
  ends := by rw [← hsize]; rfl
  writes _ := by
    simp only [Emitted.skip, List.map_nil, Chained]
    omega
  lines := by simp [Emitted.skip, hwords]
  written := by simp [Emitted.skip]
  count := rfl
  text := by simp [Emitted.skip]

theorem places_data {idx : Nat} {item : Item} {bytes : List Byte}
    (hsize : bytes.length = itemSize (layout.reserveSizes kind) idx offset item)
    (hwords : itemWords item = []) :
    Places layout kind idx offset item (.data kind offset bytes) where
  ends := by rw [← hsize]; rfl
  writes h := by
    have haddr := kind.toNat_addr (show offset ≤ sectionWindow from Nat.le_of_add_right_le h)
    simp only [Emitted.data, List.map_cons, List.map_nil, Chained, writeSpan, haddr]
    omega
  lines := by simp [Emitted.data, hwords]
  written := by simp [Emitted.data]
  count := rfl
  text := by simp [Emitted.data]

theorem length_dataBytes {width line : Nat} {here : Word} {exprs : List (List Token)}
    {bytes : List Byte} (h : dataBytes layout width line here exprs = .ok bytes) :
    bytes.length = exprs.length * width := by
  induction exprs generalizing here bytes with
  | nil =>
      cases h
      simp
  | cons group groups ih =>
      obtain ⟨value, -, h⟩ := bind_eq_ok h
      obtain ⟨rest, hrest, heq⟩ := bind_eq_ok h
      cases heq
      simp [ih hrest, length_leBytes, Nat.succ_mul, Nat.add_comm]

theorem places_emitAlign {idx bytes : Nat} {maxSkip : Option Nat} :
    Places layout kind idx offset (.alignToBytes bytes maxSkip)
      (emitAlign kind offset bytes maxSkip) where
  ends := rfl
  writes h := by
    have haddr := kind.toNat_addr (show offset ≤ sectionWindow from Nat.le_of_add_right_le h)
    have hwords : (if kind = .text ∧ offset % 4 = 0 then alignPadding offset bytes maxSkip / 4
        else 0) * 4 ≤ alignPadding offset bytes maxSkip := by
      split <;> omega
    have hlen : ∀ n, (List.replicate n (wordBytes nopWord)).flatten.length = n * 4 := by
      intro n
      simp [length_wordBytes]
    simp only [emitAlign, Emitted.skip]
    generalize (if kind = .text ∧ offset % 4 = 0 then alignPadding offset bytes maxSkip / 4
      else 0) = words at hwords ⊢
    by_cases hpos : 0 < words
    · simp only [hpos, if_true, List.map_cons, List.map_nil, Chained, writeSpan, haddr, hlen]
      omega
    · simp only [hpos, if_false, List.map_nil, Chained]
      omega
  lines := rfl
  written := by simp [emitAlign, Emitted.skip]
  count := rfl
  text := by simp [emitAlign, Emitted.skip]

theorem places_emitInstruction {idx line : Nat} {tokens : List Token} {out : Emitted}
    (h : emitInstruction encodeLine program layout pool tokens line offset = .ok out) :
    Places layout .text idx offset (.instruction tokens line) out := by
  have hplus : ∀ n, SectionKind.text.addr offset + BitVec.ofNat 64 n =
      SectionKind.text.addr (offset + n) := by
    intro n
    simp [SectionKind.addr, BitVec.ofNat_add, BitVec.add_assoc]
  simp only [emitInstruction] at h
  split at h
  · rename_i reg text hload
    obtain ⟨rt, -, h⟩ := bind_eq_ok h
    obtain ⟨word1, -, h⟩ := bind_eq_ok h
    obtain ⟨word2, -, h⟩ := bind_eq_ok h
    cases h
    constructor
    · simp [itemSize, Placing.instructionSize, hload]
    · intro (hfits : offset + 8 ≤ sectionWindow)
      have hfirst := SectionKind.text.toNat_addr (show offset ≤ sectionWindow by omega)
      have hsecond := SectionKind.text.toNat_addr (show offset + 4 ≤ sectionWindow by omega)
      have hnext : SectionKind.text.addr offset + 4 = SectionKind.text.addr (offset + 4) :=
        hplus 4
      simp only [List.map_cons, List.map_nil, Chained, writeSpan, hnext, hfirst, hsecond,
        length_wordBytes]
      omega
    · simp only [itemWords, hload, Option.isSome_some, if_true, List.map_cons, List.map_nil]
      rw [← hplus 4]
      rfl
    · intro entry hentry
      simp only [List.mem_cons, List.not_mem_nil, or_false] at hentry
      rcases hentry with rfl | rfl
      · exact ⟨word1, by simp⟩
      · exact ⟨word2, by simp⟩
    · rfl
    · exact fun _ => rfl
  · rename_i hload
    obtain ⟨word, -, h⟩ := bind_eq_ok h
    cases h
    constructor
    · simp [itemSize, Placing.instructionSize, hload]
    · intro (hfits : offset + 4 ≤ sectionWindow)
      have hfirst := SectionKind.text.toNat_addr (show offset ≤ sectionWindow by omega)
      simp only [List.map_cons, List.map_nil, Chained, writeSpan, hfirst, length_wordBytes]
      omega
    · simp [itemWords, hload]
    · intro entry hentry
      simp only [List.mem_cons, List.not_mem_nil, or_false] at hentry
      subst hentry
      exact ⟨word, by simp⟩
    · rfl
    · exact fun _ => rfl

theorem places_emitItem {idx : Nat} {item : Item} {out : Emitted}
    (h : emitItem encodeLine program layout pool kind idx offset item = .ok out) :
    Places layout kind idx offset item out := by
  cases item with
  | label name line =>
      cases h
      exact places_skip rfl rfl
  | bytes bytes =>
      cases h
      exact places_data rfl rfl
  | reserve n =>
      cases h
      exact places_skip rfl rfl
  | reserveExpr tokens line =>
      cases h
      exact places_skip rfl rfl
  | alignToBytes bytes maxSkip =>
      cases h
      exact places_emitAlign
  | symbolAssignment name body line =>
      cases h
      exact places_skip rfl rfl
  | dataExprs exprs width line =>
      obtain ⟨bytes, hbytes, h⟩ := bind_eq_ok h
      cases h
      exact places_data (length_dataBytes hbytes) rfl
  | instruction tokens line =>
      simp only [emitItem] at h
      split at h
      · cases h
      · rename_i hkind
        obtain rfl : kind = .text := not_not.mp hkind
        exact places_emitInstruction h

/-- What a run of emitted items gives, by the walk over them. -/
structure PlacesAll (layout : Layout) (kind : SectionKind) (idx offset : Nat)
    (items : List Item) (out : Emitted) : Prop where
  ends : out.offset = itemStop (layout.reserveSizes kind) idx offset items
  writes : out.offset ≤ sectionWindow →
    Chained (kind.start + offset) (kind.start + out.offset) (out.writes.map writeSpan)
  lines : out.lineMap.map Prod.fst =
    (wordOffsets (itemPositions (layout.reserveSizes kind) idx offset items)).map kind.addr
  written : ∀ entry ∈ out.lineMap, ∃ word, (entry.1, wordBytes word) ∈ out.writes
  count : out.instructionCount = out.lineMap.length
  text : out.lineMap ≠ [] → kind = .text

theorem placesAll_emitItems {idx : Nat} {items : List Item}
    {out : Emitted} (h : emitItems encodeLine program layout pool kind idx offset items = .ok out) :
    PlacesAll layout kind idx offset items out := by
  induction items generalizing idx offset out with
  | nil =>
      cases h
      constructor
      · rfl
      · intro _
        simp [Emitted.skip, Chained]
      · rfl
      · simp [Emitted.skip]
      · rfl
      · simp [Emitted.skip]
  | cons item items ih =>
      obtain ⟨first, hfirst, h⟩ := bind_eq_ok h
      obtain ⟨rest, hrest, h⟩ := bind_eq_ok h
      cases h
      have hfirst := places_emitItem hfirst
      have hrest := ih hrest
      rw [hfirst.ends] at hrest
      constructor
      · exact hrest.ends
      · intro hfits
        have hle : first.offset ≤ rest.offset := by
          rw [hfirst.ends, hrest.ends]
          exact Walk.le_stop _ _ _ _
        have hchain := hrest.writes hfits
        rw [← hfirst.ends] at hchain
        simp only [Emitted.followedBy, List.map_append]
        exact (hfirst.writes (Nat.le_trans hle hfits)).append hchain
      · simp only [Emitted.followedBy, List.map_append, hfirst.lines, hrest.lines, wordOffsets,
          Walk.positions, List.flatMap_cons, List.map_map]
        rfl
      · intro entry hentry
        rcases List.mem_append.mp hentry with hentry | hentry
        · obtain ⟨word, hword⟩ := hfirst.written entry hentry
          exact ⟨word, List.mem_append_left _ hword⟩
        · obtain ⟨word, hword⟩ := hrest.written entry hentry
          exact ⟨word, List.mem_append_right _ hword⟩
      · simp [Emitted.followedBy, hfirst.count, hrest.count]
      · intro hlines
        by_cases hnil : first.lineMap = []
        · apply hrest.text
          simpa [Emitted.followedBy, hnil] using hlines
        · exact hfirst.text hnil

/-- A run that is emitted is emitted up to any of its items. -/
theorem emitItems_take {idx : Nat} {before after : List Item} {out : Emitted}
    (h : emitItems encodeLine program layout pool kind idx offset (before ++ after) = .ok out) :
    ∃ upTo, emitItems encodeLine program layout pool kind idx offset before = .ok upTo := by
  induction before generalizing idx offset out with
  | nil => exact ⟨_, rfl⟩
  | cons item before ih =>
      obtain ⟨first, hfirst, h⟩ := bind_eq_ok h
      obtain ⟨rest, hrest, -⟩ := bind_eq_ok h
      obtain ⟨upTo, hupTo⟩ := ih hrest
      refine ⟨first.followedBy upTo, ?_⟩
      simp only [emitItems, hfirst, hupTo, bind, Except.bind, pure, Except.pure]

end Emit

end Playground
