/-
Soundness of the linker's layout.  Placement and emission agree on every address, writes
never overlap, and every literal load reaches its slot; the one exception is a label that
has the name of a trampoline.
-/
import Playground.Frontend.PoolFits

namespace Playground

open Spans

/-- The words of the instructions among `.text` items, each at the address placement
recorded for it: two for `ldr reg, label`. -/
def instructionWords : List Item → List Word → List Word
  | [], _ => []
  | .instruction tokens _ :: items, pc :: pcs =>
      (if (extractLdrLabelLoad tokens).isSome then [pc, pc + 4] else [pc]) ++
        instructionWords items pcs
  | _ :: items, pcs => instructionWords items pcs

def LoadsLiteral (p : Passes) (pc : Word) : Prop :=
  pc ∈ p.layout.textInstrPcs ∨
    ∃ i, i < p.pool.trampolines.length ∧ pc = p.pool.trampBase + BitVec.ofNat 64 (i * 8)

/-- What the passes promise of the bytes of an image. -/
structure BytesSound (encodeLine : EncodeLine) (program : Program) (p : Passes)
    (image : LinkedImage) : Prop where
  apart : (image.writes.map writeSpan).Pairwise Apart
  /-- Every write is one of a section's, in that section's window, or of the trampolines
  and the pool, in the code window. -/
  window : ∀ w ∈ image.writes,
    (∃ s ∈ program.sections, ∃ run,
      Emit.emitItems encodeLine program p.layout p.pool s.kind 0 0 s.items = .ok run ∧
      w ∈ run.writes ∧ Inside s.kind.start (s.kind.start + sectionWindow) (writeSpan w)) ∨
    (∃ trampolines, trampolineWrites p.pool 0 p.pool.trampolines = .ok trampolines ∧
      w ∈ trampolines ++ poolWrites p.pool 0 p.pool.values ∧
      Inside SectionKind.text.start (SectionKind.text.start + sectionWindow) (writeSpan w))
  trampolines : ∀ i, i < image.trampolineNames.length →
    image.textEnd < image.trampolineBase + BitVec.ofNat 64 (i * 8)
  increasing : image.lineMap.Pairwise fun a b => a.1 < b.1
  aligned : ∀ entry ∈ image.lineMap, entry.1.toNat % 4 = 0
  words : image.lineMap.map Prod.fst = instructionWords program.textItems p.layout.textInstrPcs
  written : ∀ entry ∈ image.lineMap, ∃ word, (entry.1, wordBytes word) ∈ image.writes
  literal : ∀ pc, LoadsLiteral p pc → ∀ key slot, p.pool.slots key = some slot →
    ∀ sf rt, rt ≤ 31 →
      ∃ word, encodeLdrLiteral sf rt (distance (p.pool.base + BitVec.ofNat 64 slot) pc) = .ok word

/-- The layout is sound: besides, a label's symbol is the address emission has come to
at that label. -/
structure LayoutSound (encodeLine : EncodeLine) (program : Program) (p : Passes)
    (image : LinkedImage) : Prop extends BytesSound encodeLine program p image where
  label : ∀ s ∈ program.sections, ∀ before name line after,
    s.items = before ++ .label name line :: after →
    ∃ upTo, Emit.emitItems encodeLine program p.layout p.pool s.kind 0 0 before = .ok upTo ∧
      image.symbols name = some (s.kind.addr upTo.offset)

def Program.HasLabel (program : Program) (name : String) : Prop :=
  ∃ s ∈ program.sections, ∃ line, Item.label name line ∈ s.items

/-- An instruction of `.text` branches to `name`, a symbol in the host-stub range. -/
def Program.CallsHost (program : Program) (s : Scope) (name : String) : Prop :=
  ∃ tokens line, Item.instruction tokens line ∈ program.textItems ∧
    PoolScan.CallsHost s tokens name

/-- No label has the name of the trampoline of a host function the program calls. -/
def Program.TrampolineFree (program : Program) (host : HostTable) : Prop :=
  ∀ resolved, resolveLayout program host = .ok resolved →
    ∀ name, program.CallsHost resolved.toScope name → ¬ program.HasLabel (trampolineLabel name)

variable {encodeLine : EncodeLine} {host : HostTable} {program : Program}

/-- The one section of a kind decides a list that other sections add nothing to. -/
theorem flatMap_section {β : Type} {sections : List Section} {s : Section} (f : Section → List β)
    (hs : s ∈ sections) (hnodup : (sections.map Section.kind).Nodup)
    (hf : ∀ s' ∈ sections, s'.kind ≠ s.kind → f s' = []) : sections.flatMap f = f s := by
  induction sections with
  | nil => simp at hs
  | cons t sections ih =>
      simp only [List.map_cons, List.nodup_cons] at hnodup
      simp only [List.flatMap_cons]
      rcases List.mem_cons.mp hs with rfl | hs
      · have hrest : sections.flatMap f = [] := by
          apply List.flatMap_eq_nil_iff.mpr
          intro s' hs'
          apply hf s' (List.mem_cons_of_mem s hs')
          intro hkind
          exact hnodup.1 (hkind ▸ List.mem_map_of_mem hs')
        rw [hrest, List.append_nil]
      · have hhead : f t = [] := by
          apply hf t List.mem_cons_self
          intro hkind
          exact hnodup.1 (hkind ▸ List.mem_map_of_mem hs)
        rw [hhead, List.nil_append]
        exact ih hs hnodup.2 fun s' hs' => hf s' (List.mem_cons_of_mem t hs')

theorem instructionWords_walk (sizes : Nat → Option Nat) (idx offset : Nat) (items : List Item) :
    instructionWords items
        ((itemPositions sizes idx offset items).filterMap (Placing.instructionPc .text)) =
      (wordOffsets (itemPositions sizes idx offset items)).map SectionKind.text.addr := by
  induction items generalizing idx offset with
  | nil => rfl
  | cons item items ih =>
      have hrest := ih (idx + 1) (offset + itemSize sizes idx offset item)
      cases item with
      | instruction tokens line =>
          simp only [Walk.positions, List.filterMap_cons, Placing.instructionPc, instructionWords,
            wordOffsets, List.flatMap_cons, List.map_append, itemWords]
          rw [hrest]
          congr 1
          split
          · simp [SectionKind.addr, BitVec.ofNat_add, BitVec.add_assoc]
          · simp
      | _ =>
          simp only [Walk.positions, List.filterMap_cons, Placing.instructionPc, instructionWords,
            wordOffsets, List.flatMap_cons, itemWords, List.map_nil, List.nil_append]
          exact hrest

/-- Instruction words follow each other in the walk. -/
theorem chained_wordOffsets (sizes : Nat → Option Nat) (idx offset : Nat) (items : List Item) :
    Chained offset (itemStop sizes idx offset items)
      ((wordOffsets (itemPositions sizes idx offset items)).map fun o => (o, 4)) := by
  induction items generalizing idx offset with
  | nil => exact Nat.le_refl _
  | cons item items ih =>
      have hrest := ih (idx + 1) (offset + itemSize sizes idx offset item)
      simp only [Walk.positions, Walk.stop, wordOffsets, List.flatMap_cons, List.map_append]
      refine Chained.append ?_ hrest
      cases item with
      | instruction tokens line =>
          simp only [itemWords, itemSize, Placing.instructionSize]
          split <;> simp [Chained]
      | _ => simp [itemWords, Chained]

theorem wordOffsets_aligned {entries : List (Nat × Item)}
    (h : ∀ entry ∈ entries, (Placing.instructionPc .text entry).isSome → entry.1 % 4 = 0) :
    ∀ o ∈ wordOffsets entries, o % 4 = 0 := by
  intro o ho
  obtain ⟨entry, hentry, ho⟩ := List.mem_flatMap.mp ho
  obtain ⟨k, hk, rfl⟩ := List.mem_map.mp ho
  have haligned := h entry hentry
  obtain ⟨at', item⟩ := entry
  cases item with
  | instruction tokens line =>
      have hat : at' % 4 = 0 := haligned rfl
      have hword : k = 0 ∨ k = 4 := by
        simp only [itemWords] at hk
        split at hk <;> simp at hk <;> omega
      simp only
      omega
  | _ => simp [itemWords] at hk

section
variable {encodeLine : EncodeLine} {program : Program} {layout : Layout} {pool : Pool}

/-- What emitting sections gives: the writes of each, apart from those of the others, and
a line map of the instruction words. -/
structure EmitsAll (encodeLine : EncodeLine) (program : Program) (layout : Layout) (pool : Pool)
    (sections : List Section) (e : Emission) : Prop where
  run : ∀ s ∈ sections, ∃ run,
    Emit.emitItems encodeLine program layout pool s.kind 0 0 s.items = .ok run
  origin : ∀ w ∈ e.writes, ∃ s ∈ sections, ∃ run,
    Emit.emitItems encodeLine program layout pool s.kind 0 0 s.items = .ok run ∧ w ∈ run.writes
  apart : (e.writes.map writeSpan).Pairwise Apart
  lines : e.lineMap.map Prod.fst = sections.flatMap fun s =>
    (wordOffsets (layout.sectionPositions s)).map s.kind.addr
  text : ∀ s ∈ sections, s.kind ≠ .text → wordOffsets (layout.sectionPositions s) = []
  written : ∀ entry ∈ e.lineMap, ∃ word, (entry.1, wordBytes word) ∈ e.writes
  count : e.instructionCount = e.lineMap.length

variable {sections : List Section}

/-- A section's writes lie between its base and where it stops. -/
theorem inside_of_emitItems {s : Section} {run : Emitted}
    (hfits : layout.sectionStop s ≤ sectionWindow)
    (h : Emit.emitItems encodeLine program layout pool s.kind 0 0 s.items = .ok run) :
    ∀ w ∈ run.writes, Inside s.kind.start (s.kind.start + layout.sectionStop s) (writeSpan w) := by
  intro w hw
  have hplaces := Emit.placesAll_emitItems h
  have hchain := hplaces.writes (hplaces.ends ▸ hfits)
  rw [hplaces.ends] at hchain
  exact hchain.inside _ (List.mem_map_of_mem hw)

theorem emitsAll_emitSections {e : Emission}
    (h : emitSections encodeLine program layout pool sections = .ok e)
    (hnodup : (sections.map Section.kind).Nodup)
    (hfits : ∀ s ∈ sections, layout.sectionStop s ≤ sectionWindow) :
    EmitsAll encodeLine program layout pool sections e := by
  induction sections generalizing e with
  | nil =>
      cases h
      constructor <;> simp
  | cons s sections ih =>
      obtain ⟨run, hrun, h⟩ := bind_eq_ok h
      obtain ⟨rest, hrest, h⟩ := bind_eq_ok h
      cases h
      simp only [List.map_cons, List.nodup_cons] at hnodup
      have hrest := ih hrest hnodup.2 fun s' hs' => hfits s' (List.mem_cons_of_mem s hs')
      have hplaces := Emit.placesAll_emitItems hrun
      have hfit := hfits s List.mem_cons_self
      constructor
      · intro s' hs'
        rcases List.mem_cons.mp hs' with rfl | hs'
        · exact ⟨run, hrun⟩
        · exact hrest.run s' hs'
      · intro w hw
        rcases List.mem_append.mp hw with hw | hw
        · exact ⟨s, List.mem_cons_self, run, hrun, hw⟩
        · obtain ⟨s', hs', run', hrun', hw'⟩ := hrest.origin w hw
          exact ⟨s', List.mem_cons_of_mem s hs', run', hrun', hw'⟩
      · simp only [Emission.addSection, List.map_append]
        apply List.pairwise_append.mpr
        refine ⟨(hplaces.writes (hplaces.ends ▸ hfit)).pairwise, hrest.apart, ?_⟩
        -- this section's window and another's
        intro a ha b hb
        obtain ⟨w, hw, rfl⟩ := List.mem_map.mp ha
        obtain ⟨w', hw', rfl⟩ := List.mem_map.mp hb
        obtain ⟨s', hs', run', hrun', hw'⟩ := hrest.origin w' hw'
        have hfit' := hfits s' (List.mem_cons_of_mem s hs')
        have hkind : s.kind ≠ s'.kind := fun heq => hnodup.1 (heq ▸ List.mem_map_of_mem hs')
        have hfirst := (inside_of_emitItems hfit hrun w hw).mono (Nat.le_refl _)
          (Nat.add_le_add_left hfit s.kind.start)
        have hother := (inside_of_emitItems hfit' hrun' w' hw').mono (Nat.le_refl _)
          (Nat.add_le_add_left hfit' s'.kind.start)
        exact hfirst.apart hother (SectionKind.windows_apart hkind)
      · simp only [Emission.addSection, List.map_append, hplaces.lines, hrest.lines,
          List.flatMap_cons]
        rfl
      · intro s' hs' hkind
        rcases List.mem_cons.mp hs' with rfl | hs'
        · by_contra hne
          apply hkind
          apply hplaces.text
          intro hnil
          have hlines := hplaces.lines
          rw [hnil] at hlines
          exact hne (List.map_eq_nil_iff.mp hlines.symm)
        · exact hrest.text s' hs' hkind
      · intro entry hentry
        rcases List.mem_append.mp hentry with hentry | hentry
        · obtain ⟨word, hword⟩ := hplaces.written entry hentry
          exact ⟨word, List.mem_append_left _ hword⟩
        · obtain ⟨word, hword⟩ := hrest.written entry hentry
          exact ⟨word, List.mem_append_right _ hword⟩
      · simp [Emission.addSection, hplaces.count, hrest.count]

theorem addr_add (kind : SectionKind) (offset n : Nat) :
    kind.addr offset + BitVec.ofNat 64 n = kind.addr (offset + n) := by
  simp [SectionKind.addr, BitVec.ofNat_add, BitVec.add_assoc]

/-- The trampolines follow each other from their base. -/
theorem chained_trampolineWrites {offset idx : Nat} {names : List String}
    {writes : List (Word × List Byte)} (hbase : pool.trampBase = SectionKind.text.addr offset)
    (hfits : offset + (idx + names.length) * 8 ≤ sectionWindow)
    (h : trampolineWrites pool idx names = .ok writes) :
    Chained (SectionKind.text.start + (offset + idx * 8))
      (SectionKind.text.start + (offset + (idx + names.length) * 8)) (writes.map writeSpan) := by
  induction names generalizing idx writes with
  | nil =>
      cases h
      exact Nat.le_refl _
  | cons name names ih =>
      obtain ⟨ldr, -, h⟩ := bind_eq_ok h
      obtain ⟨rest, hrest, h⟩ := bind_eq_ok h
      cases h
      rw [List.length_cons] at hfits ⊢
      have hrest := ih (by omega) hrest
      have hfirst := SectionKind.text.toNat_addr (show offset + idx * 8 ≤ sectionWindow by omega)
      have hsecond :=
        SectionKind.text.toNat_addr (show offset + idx * 8 + 4 ≤ sectionWindow by omega)
      have hnext : SectionKind.text.addr (offset + idx * 8) + 4 =
          SectionKind.text.addr (offset + idx * 8 + 4) := addr_add _ _ 4
      simp only [List.map_cons, writeSpan, hbase, addr_add, hnext, hfirst, hsecond,
        length_wordBytes, Chained]
      refine ⟨by omega, by omega, ?_⟩
      have hstart : SectionKind.text.start + (offset + idx * 8 + 4) + 4 =
          SectionKind.text.start + (offset + (idx + 1) * 8) := by omega
      have hend : idx + (names.length + 1) = idx + 1 + names.length := by omega
      rw [hstart, hend]
      exact hrest

theorem chained_poolWrites {offset idx : Nat} {values : List Word}
    (hbase : pool.base = SectionKind.text.addr offset)
    (hfits : offset + (idx + values.length) * 8 ≤ sectionWindow) :
    Chained (SectionKind.text.start + (offset + idx * 8))
      (SectionKind.text.start + (offset + (idx + values.length) * 8))
      ((poolWrites pool idx values).map writeSpan) := by
  induction values generalizing idx with
  | nil => exact Nat.le_refl _
  | cons value values ih =>
      rw [List.length_cons] at hfits ⊢
      have hrest := @ih (idx + 1) (by omega)
      have hfirst := SectionKind.text.toNat_addr (show offset + idx * 8 ≤ sectionWindow by omega)
      simp only [poolWrites, List.map_cons, writeSpan, hbase, addr_add, hfirst, length_leBytes,
        Chained]
      refine ⟨by omega, ?_⟩
      have hstart : SectionKind.text.start + (offset + idx * 8) + 8 =
          SectionKind.text.start + (offset + (idx + 1) * 8) := by omega
      have hend : idx + (values.length + 1) = idx + 1 + values.length := by omega
      rw [hstart, hend]
      exact hrest

/-- A distance that is a multiple of four and under a mebibyte encodes. -/
theorem encodeLdrLiteral_ok {sf : Bool} {rt : Nat} {d : Int} (hrt : rt ≤ 31) (haligned : d % 4 = 0)
    (hlo : 0 ≤ d) (hhi : d < 2 ^ 20) : ∃ word, encodeLdrLiteral sf rt d = .ok word := by
  unfold encodeLdrLiteral
  rw [if_neg (by omega), if_neg (by omega)]
  simp only
  rw [if_neg (by omega)]
  exact ⟨_, rfl⟩

theorem distance_addr {offset offset' : Nat} (h : offset ≤ sectionWindow)
    (h' : offset' ≤ sectionWindow) :
    distance (SectionKind.text.addr offset') (SectionKind.text.addr offset) =
      (offset' : Int) - offset := by
  have hnat := SectionKind.text.toNat_addr h
  have hnat' := SectionKind.text.toNat_addr h'
  have hstart : SectionKind.text.start = 0x400000 := rfl
  unfold sectionWindow at h h'
  unfold distance
  rw [BitVec.toInt_eq_toNat_of_lt (by omega), BitVec.toInt_eq_toNat_of_lt (by omega), hnat, hnat']
  omega

theorem lt_trampolineOffset (textLen : Nat) : textLen < trampolineOffset textLen := by
  unfold trampolineOffset
  omega

theorem trampolineOffset_aligned (textLen : Nat) : trampolineOffset textLen % 8 = 0 := by
  unfold trampolineOffset
  omega

/-- The trampolines and the pool together lie after `.text`, in the code window. -/
theorem chained_tail {textLen : Nat} {trampolines : List (Word × List Byte)}
    (hpool : PoolFits textLen pool)
    (h : trampolineWrites pool 0 pool.trampolines = .ok trampolines) :
    Chained (SectionKind.text.start + trampolineOffset textLen)
      (SectionKind.text.start + sectionWindow)
      ((trampolines ++ poolWrites pool 0 pool.values).map writeSpan) := by
  have hfits := hpool.fits
  have hfirst := chained_trampolineWrites hpool.trampBase (by omega) h
  have hsecond := chained_poolWrites hpool.base (show _ + (0 + pool.values.length) * 8 ≤ _ by omega)
  simp only [Nat.zero_add, Nat.zero_mul, Nat.add_zero] at hfirst hsecond
  rw [List.map_append]
  apply hfirst.append
  have hnil : Chained (SectionKind.text.start + (trampolineOffset textLen +
      pool.trampolines.length * 8 + pool.values.length * 8))
      (SectionKind.text.start + sectionWindow) [] := by
    simp only [Chained]
    omega
  simpa using hsecond.append hnil

/-- Every literal load is before its slot, a multiple of four and less than a mebibyte
away. -/
theorem literal_ok (hlays : layout.Lays sections)
    (hpcs : layout.textInstrPcs = sections.flatMap layout.sectionPcs)
    (hpool : PoolFits layout.textLen pool) {pc : Word}
    (hpc : pc ∈ layout.textInstrPcs ∨
      ∃ i, i < pool.trampolines.length ∧ pc = pool.trampBase + BitVec.ofNat 64 (i * 8))
    {key : PoolKey} {slot : Nat} (hslot : pool.slots key = some slot) (sf : Bool) {rt : Nat}
    (hrt : rt ≤ 31) :
    ∃ word, encodeLdrLiteral sf rt (distance (pool.base + BitVec.ofNat 64 slot) pc) =
      .ok word := by
  obtain ⟨i, hi, rfl⟩ := hpool.slots key slot hslot
  have hfits := hpool.fits
  have hafter := lt_trampolineOffset layout.textLen
  have htramp := trampolineOffset_aligned layout.textLen
  have hload : ∃ o, pc = SectionKind.text.addr o ∧ o % 4 = 0 ∧
      o < trampolineOffset layout.textLen + pool.trampolines.length * 8 := by
    rcases hpc with hpc | ⟨j, hj, rfl⟩
    · rw [hpcs] at hpc
      obtain ⟨s, hs, hpc⟩ := List.mem_flatMap.mp hpc
      obtain ⟨⟨o, item⟩, hentry, hsome⟩ := List.mem_filterMap.mp hpc
      have hkind : s.kind = .text ∧ pc = SectionKind.text.addr o := by
        unfold Placing.instructionPc at hsome
        split at hsome
        · rename_i hkind _
          rw [hkind] at hsome
          exact ⟨hkind, (Option.some.inj hsome).symm⟩
        · cases hsome
      have hstop : o ≤ itemStop (layout.reserveSizes s.kind) 0 0 s.items :=
        (Walk.position_le_stop _ hentry).2
      have hlen : layout.textLen = itemStop (layout.reserveSizes s.kind) 0 0 s.items :=
        hlays.textLen s hs hkind.1
      refine ⟨o, hkind.2, hlays.aligned s hs (o, item) hentry (by rw [hsome]; rfl), ?_⟩
      omega
    · rw [hpool.trampBase, addr_add]
      exact ⟨_, rfl, by omega, by omega⟩
  obtain ⟨o, rfl, haligned, hbefore⟩ := hload
  have hdistance := distance_addr (show o ≤ sectionWindow by omega)
    (show trampolineOffset layout.textLen + pool.trampolines.length * 8 + i * 8 ≤ sectionWindow
      by omega)
  rw [hpool.base, addr_add, hdistance]
  apply encodeLdrLiteral_ok hrt
  · omega
  · omega
  · unfold sectionWindow at hfits
    omega

theorem sectionPcs_eq_nil {s : Section} (hkind : s.kind ≠ .text) : layout.sectionPcs s = [] := by
  apply List.filterMap_eq_nil_iff.mpr
  intro entry _
  unfold Placing.instructionPc
  split
  · rename_i htext _
    exact absurd htext hkind
  · rfl

theorem textItems_eq {s : Section} (hs : s ∈ sections)
    (hnodup : (sections.map Section.kind).Nodup) (hkind : s.kind = .text) :
    (sections.filter fun s => s.kind = .text).flatMap Section.items = s.items := by
  have hfilter : ∀ sections : List Section,
      (sections.filter fun s => s.kind = .text).flatMap Section.items =
        sections.flatMap fun s => if s.kind = .text then s.items else [] := by
    intro sections
    induction sections with
    | nil => rfl
    | cons t sections ih =>
        by_cases ht : t.kind = .text
        · simp [ht, ih]
        · simp [ht, ih]
  rw [hfilter, flatMap_section _ hs hnodup, if_pos hkind]
  intro s' _ hne
  exact if_neg (hkind ▸ hne)

/-- Emitted instructions have a `.text` section they come from. -/
theorem exists_text {e : Emission} (hemits : EmitsAll encodeLine program layout pool sections e)
    (hcount : e.instructionCount ≠ 0) : ∃ s ∈ sections, s.kind = .text := by
  by_contra hnone
  apply hcount
  rw [hemits.count, ← List.length_map Prod.fst, hemits.lines, List.length_eq_zero_iff]
  apply List.flatMap_eq_nil_iff.mpr
  intro s hs
  rw [hemits.text s hs fun hkind => hnone ⟨s, hs, hkind⟩]
  rfl

theorem wordOffsets_section (s : Section) :
    (wordOffsets (layout.sectionPositions s)).Pairwise (· < ·) ∧
      ∀ o ∈ wordOffsets (layout.sectionPositions s), o ≤ layout.sectionStop s := by
  have hchain : Chained 0 (layout.sectionStop s)
      ((wordOffsets (layout.sectionPositions s)).map fun o => (o, 4)) :=
    chained_wordOffsets (layout.reserveSizes s.kind) 0 0 s.items
  constructor
  · have hpairwise := hchain.pairwise_lt (by simp)
    simpa [List.pairwise_map] using hpairwise
  · intro o ho
    have hinside := hchain.inside (o, 4) (List.mem_map_of_mem ho)
    exact Nat.le_of_add_right_le hinside.2

/-- The line map lists the instruction words of the one `.text` section, in order. -/
theorem lineMap_sound {e : Emission} (hnodup : (sections.map Section.kind).Nodup)
    (hemits : EmitsAll encodeLine program layout pool sections e) (hlays : layout.Lays sections)
    (hpcs : layout.textInstrPcs = sections.flatMap layout.sectionPcs)
    (hcount : e.instructionCount ≠ 0) :
    (e.lineMap.Pairwise fun a b => a.1 < b.1) ∧ (∀ entry ∈ e.lineMap, entry.1.toNat % 4 = 0) ∧
      e.lineMap.map Prod.fst = instructionWords
        ((sections.filter fun s => s.kind = .text).flatMap Section.items)
        layout.textInstrPcs := by
  obtain ⟨s, hs, hkind⟩ := exists_text hemits hcount
  have hwords : e.lineMap.map Prod.fst =
      (wordOffsets (layout.sectionPositions s)).map SectionKind.text.addr := by
    rw [hemits.lines, flatMap_section _ hs hnodup, hkind]
    intro s' hs' hne
    rw [hemits.text s' hs' (hkind ▸ hne)]
    rfl
  have hrecorded : layout.textInstrPcs = layout.sectionPcs s := by
    rw [hpcs]
    apply flatMap_section _ hs hnodup
    exact fun s' _ hne => sectionPcs_eq_nil (hkind ▸ hne)
  obtain ⟨hincreasing, hstop⟩ := @wordOffsets_section layout s
  have hbound : ∀ o ∈ wordOffsets (layout.sectionPositions s),
      (SectionKind.text.addr o).toNat = SectionKind.text.start + o := by
    intro o ho
    exact SectionKind.text.toNat_addr (Nat.le_trans (hstop o ho) (hlays.fits s hs))
  refine ⟨?_, ?_, ?_⟩
  · have haddrs : (e.lineMap.map Prod.fst).Pairwise (· < ·) := by
      rw [hwords, List.pairwise_map]
      refine hincreasing.imp_of_mem ?_
      intro a b ha hb hlt
      rw [BitVec.lt_def, hbound a ha, hbound b hb]
      exact Nat.add_lt_add_left hlt _
    rwa [List.pairwise_map] at haddrs
  · intro entry hentry
    have hmem : entry.1 ∈ e.lineMap.map Prod.fst := List.mem_map_of_mem hentry
    rw [hwords] at hmem
    obtain ⟨o, ho, heq⟩ := List.mem_map.mp hmem
    have haligned : o % 4 = 0 := by
      refine wordOffsets_aligned ?_ o ho
      intro entry hentry hpc
      exact hlays.aligned s hs entry hentry (hkind ▸ hpc)
    have hstart := SectionKind.text.start_aligned
    rw [← heq, hbound o ho]
    omega
  · rw [hwords, textItems_eq hs hnodup hkind, hrecorded]
    have hwalk := instructionWords_walk (layout.reserveSizes s.kind) 0 0 s.items
    simp only [Layout.sectionPcs, hkind]
    exact hwalk.symm

/-- The image's writes never overlap: sections in their windows, then what follows
`.text`. -/
theorem writes_apart {e : Emission} {trampolines : List (Word × List Byte)}
    (hemits : EmitsAll encodeLine program layout pool sections e) (hlays : layout.Lays sections)
    (hpool : PoolFits layout.textLen pool)
    (h : trampolineWrites pool 0 pool.trampolines = .ok trampolines) :
    ((e.writes ++ (trampolines ++ poolWrites pool 0 pool.values)).map writeSpan).Pairwise
      Apart := by
  have htail := chained_tail hpool h
  rw [List.map_append]
  apply List.pairwise_append.mpr
  refine ⟨hemits.apart, htail.pairwise, ?_⟩
  intro a ha b hb
  obtain ⟨w, hw, rfl⟩ := List.mem_map.mp ha
  obtain ⟨s, hs, run, hrun, hw⟩ := hemits.origin w hw
  have hfits := hlays.fits s hs
  have hfirst := inside_of_emitItems hfits hrun w hw
  have hsecond := htail.inside b hb
  by_cases hkind : s.kind = .text
  · have hafter := lt_trampolineOffset layout.textLen
    rw [hlays.textLen s hs hkind] at hafter
    rw [hlays.textLen s hs hkind, ← hkind] at hsecond
    exact hfirst.apart hsecond (Or.inl (Nat.add_le_add_left (Nat.le_of_lt hafter) _))
  · have hown := hfirst.mono (Nat.le_refl _) (Nat.add_le_add_left hfits s.kind.start)
    have hcode := hsecond.mono (Nat.le_add_right _ _) (Nat.le_refl _)
    exact hown.apart hcode (SectionKind.windows_apart hkind)

end

theorem runPasses_cases {p : Passes} (h : runPasses encodeLine host program = .ok p) :
    ∃ resolved e trampolines, resolveLayout program host = .ok resolved ∧
      sizeLiteralPool program resolved = .ok (p.layout, p.pool) ∧
      emitSections encodeLine program p.layout p.pool program.sections = .ok e ∧
      trampolineWrites p.pool 0 p.pool.trampolines = .ok trampolines ∧
      e.instructionCount ≠ 0 ∧
      p.emission = { e with
        writes := e.writes ++ trampolines ++ poolWrites p.pool 0 p.pool.values } := by
  obtain ⟨resolved, hresolved, h⟩ := bind_eq_ok h
  obtain ⟨⟨layout, pool⟩, hsize, h⟩ := bind_eq_ok h
  obtain ⟨emission, hemit, h⟩ := bind_eq_ok h
  cases h
  obtain ⟨e, hsections, hemit⟩ := bind_eq_ok hemit
  obtain ⟨trampolines, htrampolines, hemit⟩ := bind_eq_ok hemit
  split at hemit
  · cases hemit
  · rename_i hcount
    cases hemit
    exact ⟨resolved, e, trampolines, hresolved, hsize, hsections, htrampolines, hcount, rfl⟩

theorem link_cases {image : LinkedImage} (h : link encodeLine host program = .ok image) :
    ∃ p entryPoint, runPasses encodeLine host program = .ok p ∧ image = p.image entryPoint := by
  obtain ⟨p, hp, h⟩ := bind_eq_ok h
  obtain ⟨entryPoint, -, h⟩ := bind_eq_ok h
  cases h
  exact ⟨p, entryPoint, hp, rfl⟩

theorem lays_runPasses {p : Passes} (h : runPasses encodeLine host program = .ok p) :
    p.layout.Lays program.sections ∧
      p.layout.textInstrPcs = program.sections.flatMap p.layout.sectionPcs := by
  obtain ⟨resolved, -, -, hresolved, hsize, -⟩ := runPasses_cases h
  obtain ⟨hlays, -, hpcs⟩ := lays_resolveLayout hresolved
  obtain ⟨-, -, symbols, hlayout, -⟩ := sizeLiteralPool_spec hsize
  -- the final layout differs from the resolved one in the symbols only
  rw [hlayout]
  exact ⟨⟨hlays.fits, hlays.aligned, hlays.textLen⟩, hpcs⟩

/-- The bytes of an accepted program's image are sound, whatever its labels are called. -/
theorem bytesSound_runPasses
    {p : Passes} (h : runPasses encodeLine host program = .ok p) (entryPoint : Word) :
    BytesSound encodeLine program p (p.image entryPoint) := by
  obtain ⟨resolved, e, trampolines, hresolved, hsize, hsections, htramp, hcount, hemission⟩ :=
    runPasses_cases h
  obtain ⟨hpool, -, symbols, hlayout, -⟩ := sizeLiteralPool_spec hsize
  obtain ⟨hlays, hpcs⟩ := lays_runPasses h
  have hpool : PoolFits p.layout.textLen p.pool := by
    rw [hlayout]
    exact hpool
  have hemits := emitsAll_emitSections hsections program.kinds_nodup hlays.fits
  obtain ⟨hincreasing, haligned, hwords⟩ :=
    lineMap_sound program.kinds_nodup hemits hlays hpcs hcount
  have hwrites : (p.image entryPoint).writes =
      e.writes ++ (trampolines ++ poolWrites p.pool 0 p.pool.values) := by
    simp [Passes.image, hemission]
  have hlines : (p.image entryPoint).lineMap = e.lineMap := by
    simp [Passes.image, hemission]
  constructor
  · rw [hwrites]
    exact writes_apart hemits hlays hpool htramp
  · intro w hw
    rw [hwrites] at hw
    rcases List.mem_append.mp hw with hw | hw
    · obtain ⟨s, hs, run, hrun, hw⟩ := hemits.origin w hw
      have hfits := hlays.fits s hs
      have hinside := (inside_of_emitItems hfits hrun w hw).mono (Nat.le_refl _)
        (Nat.add_le_add_left hfits s.kind.start)
      exact Or.inl ⟨s, hs, run, hrun, hw, hinside⟩
    · have hinside := (chained_tail hpool htramp).inside _ (List.mem_map_of_mem hw)
      exact Or.inr ⟨trampolines, htramp, hw, hinside.mono (Nat.le_add_right _ _) (Nat.le_refl _)⟩
  · intro i hi
    have hi : i < p.pool.trampolines.length := hi
    have hne : p.pool.trampolines ≠ [] := fun hnil => by simp [hnil] at hi
    have hafter := lt_trampolineOffset p.layout.textLen
    have hfits := hpool.fits
    have htextEnd := SectionKind.text.toNat_addr (show p.layout.textLen ≤ sectionWindow by omega)
    have hstart := SectionKind.text.toNat_addr
      (show trampolineOffset p.layout.textLen + i * 8 ≤ sectionWindow by omega)
    simp only [Passes.image, List.isEmpty_iff, hne, if_false, hpool.trampBase, addr_add]
    rw [BitVec.lt_def, htextEnd, hstart]
    omega
  · rw [hlines]
    exact hincreasing
  · rw [hlines]
    exact haligned
  · rw [hlines]
    exact hwords
  · intro entry hentry
    rw [hlines] at hentry
    obtain ⟨word, hword⟩ := hemits.written entry hentry
    rw [hwrites]
    exact ⟨word, List.mem_append_left _ hword⟩
  · intro pc hpc key slot hslot sf rt hrt
    exact literal_ok hlays hpcs hpool hpc hslot sf hrt

/-- Where emission has come to at a label. -/
theorem emitted_label {layout : Layout}
    {pool : Pool} {e : Emission} {s : Section} {before after : List Item} {name : String}
    {line : Nat} (hemits : EmitsAll encodeLine program layout pool program.sections e)
    (hs : s ∈ program.sections) (hitems : s.items = before ++ .label name line :: after) :
    ∃ upTo, Emit.emitItems encodeLine program layout pool s.kind 0 0 before = .ok upTo ∧
      (upTo.offset, Item.label name line) ∈ layout.sectionPositions s := by
  obtain ⟨run, hrun⟩ := hemits.run s hs
  rw [hitems] at hrun
  obtain ⟨upTo, hupTo⟩ := Emit.emitItems_take hrun
  refine ⟨upTo, hupTo, ?_⟩
  rw [(Emit.placesAll_emitItems hupTo).ends, Layout.sectionPositions, hitems]
  exact Walk.mem_positions _ _ _ _ _ _

theorem trampoline_ne_label {layout : Layout} {pool : Pool} {sections : List Section}
    {s : Section} {o i : Nat} (hlays : layout.Lays sections) (hs : s ∈ sections)
    (ho : o ≤ layout.sectionStop s) (hpool : PoolFits layout.textLen pool)
    (hi : i < pool.trampolines.length) :
    s.kind.addr o ≠ pool.trampBase + BitVec.ofNat 64 (i * 8) := by
  have hfits := hlays.fits s hs
  have hpoolFits := hpool.fits
  have hafter := lt_trampolineOffset layout.textLen
  intro heq
  have htoNat := congrArg BitVec.toNat heq
  rw [hpool.trampBase, addr_add, s.kind.toNat_addr (by omega),
    SectionKind.text.toNat_addr (by omega)] at htoNat
  by_cases hkind : s.kind = .text
  · rw [hlays.textLen s hs hkind] at hafter htoNat
    rw [hkind] at htoNat
    omega
  · rcases SectionKind.windows_apart hkind with hbelow | habove
    · have hleast : SectionKind.text.start ≤ s.kind.start := by
        cases s.kind <;> decide
      have hpositive : 0 < sectionWindow := by decide
      omega
    · omega

/-- The layout of an accepted program is sound exactly when no label has the name of a
trampoline the program needs: wiring that trampoline overwrites the label's address. -/
theorem layoutSound_iff {encodeLine : EncodeLine} {host : HostTable} {program : Program}
    {image : LinkedImage} (h : link encodeLine host program = .ok image) :
    (∃ p, runPasses encodeLine host program = .ok p ∧ LayoutSound encodeLine program p image) ↔
      program.TrampolineFree host := by
  obtain ⟨p, entryPoint, hp, rfl⟩ := link_cases h
  obtain ⟨resolved, e, trampolines, hresolved, hsize, hsections, -, -, -⟩ := runPasses_cases hp
  obtain ⟨hlays, hlabels, -⟩ := lays_resolveLayout hresolved
  obtain ⟨hpool, hcalls, symbols, hlayout, hsymbols⟩ := sizeLiteralPool_spec hsize
  have hpositions : p.layout.sectionPositions = resolved.sectionPositions := by
    rw [hlayout]
    rfl
  have hfits : ∀ s ∈ program.sections, p.layout.sectionStop s ≤ sectionWindow := by
    rw [hlayout]
    exact hlays.fits
  have hemits := emitsAll_emitSections hsections program.kinds_nodup hfits
  have himage : (p.image entryPoint).symbols = symbols := by
    simp [Passes.image, hlayout]
  constructor
  · rintro ⟨q, hq, hsound⟩ resolved' hresolved' name hname ⟨s, hs, line, hlabel⟩
    obtain rfl : p = q := by rw [hp] at hq; exact Except.ok.inj hq
    obtain rfl : resolved = resolved' := by
      rw [hresolved] at hresolved'
      exact Except.ok.inj hresolved'
    obtain ⟨before, after, hitems⟩ := List.append_of_mem hlabel
    obtain ⟨upTo, hupTo, hsymbol⟩ := hsound.label s hs before _ line after hitems
    obtain ⟨upTo', hupTo', hposition⟩ := emitted_label hemits hs hitems
    obtain rfl : upTo = upTo' := by rw [hupTo] at hupTo'; exact Except.ok.inj hupTo'
    obtain ⟨i, hi, hwired⟩ := (hsymbols (trampolineLabel name)).2
      ⟨name, (hcalls name).mpr hname, rfl⟩
    rw [himage, hwired] at hsymbol
    rw [hpositions] at hposition
    exact trampoline_ne_label hlays hs (Walk.position_le_stop _ hposition).2 hpool hi
      (Option.some.inj hsymbol).symm
  · intro hfree
    refine ⟨p, hp, bytesSound_runPasses hp entryPoint, ?_⟩
    intro s hs before name line after hitems
    obtain ⟨upTo, hupTo, hposition⟩ := emitted_label hemits hs hitems
    refine ⟨upTo, hupTo, ?_⟩
    rw [hpositions] at hposition
    rw [himage, (hsymbols name).1]
    · exact (hlabels s hs upTo.offset name line hposition).2
    · rintro called hcalled rfl
      exact hfree resolved hresolved called ((hcalls called).mp hcalled)
        ⟨s, hs, line, by rw [hitems]; simp⟩

/-- The line encoder on `bl label`. -/
def encodeBl : EncodeLine
  | 'b' :: 'l' :: ' ' :: target, pc, symbols, line =>
      match symbols (String.ofList target) with
      | none => .error (undefinedLabel line (String.ofList target))
      | some addr => .ok (0x94000000 ||| (BitVec.ofInt 32 (distance addr pc / 4) &&& 0x3FFFFFF))
  | _, _, _, line => .error (.assemblyError line "unknown instruction")

def printfHost : HostTable := ⟨[("printf", fun side _ _ => .done (side, .ok .continue))]⟩

/-- `main: bl printf`, then a label of its own. -/
def printfProgram (label : String) : Program where
  sections := [⟨.text, [
    .label "main" 3,
    .instruction [⟨.ident "bl", 3, 7⟩, ⟨.ident "printf", 3, 10⟩] 3,
    .label label 4]⟩]
  globals := ["main"]
  expandedSource := "\t.text\n\t.global main\nmain:\tbl printf\n" ++ label ++ ":\n"
  kinds_nodup := List.nodup_singleton _

/-- With a label `done` the layout is sound. -/
theorem layoutSound_callPrintf :
    ∃ image, link encodeBl printfHost (printfProgram "done") = .ok image ∧
    ∃ p, runPasses encodeBl printfHost (printfProgram "done") = .ok p ∧
      LayoutSound encodeBl (printfProgram "done") p image := by
  have hok : (link encodeBl printfHost (printfProgram "done")).isOk = true := by decide
  obtain ⟨image, himage⟩ :
      ∃ image, link encodeBl printfHost (printfProgram "done") = .ok image := by
    cases hlink : link encodeBl printfHost (printfProgram "done") with
    | ok image => exact ⟨image, rfl⟩
    | error e => simp [hlink, Except.isOk, Except.toBool] at hok
  refine ⟨image, himage, (layoutSound_iff himage).mpr ?_⟩
  rintro resolved - name - ⟨s, hs, line, hlabel⟩
  have hchars : ∀ other : String, trampolineLabel name = other →
      other.toList.take 8 = "__tramp_".toList := by
    rintro other rfl
    simp [trampolineLabel]
  obtain rfl := List.mem_singleton.mp hs
  simp only [List.mem_cons, Item.label.injEq, List.not_mem_nil, or_false, reduceCtorEq,
    false_or] at hlabel
  rcases hlabel with ⟨hname, -⟩ | ⟨hname, -⟩
  · exact absurd (hchars _ hname) (by decide)
  · exact absurd (hchars _ hname) (by decide)

/-- A label `__tramp_printf` ends up with the trampoline's address. -/
theorem not_layoutSound_callPrintf :
    ∃ image, link encodeBl printfHost (printfProgram "__tramp_printf") = .ok image ∧
      ¬ ∃ p, runPasses encodeBl printfHost (printfProgram "__tramp_printf") = .ok p ∧
        LayoutSound encodeBl (printfProgram "__tramp_printf") p image := by
  have hsymbol : (link encodeBl printfHost (printfProgram "__tramp_printf")).map
      (fun image => image.symbols "__tramp_printf") = .ok (some 0x400008) := by decide
  cases himage : link encodeBl printfHost (printfProgram "__tramp_printf") with
  | error e => simp [himage, Except.map] at hsymbol
  | ok image =>
      refine ⟨image, rfl, ?_⟩
      rintro ⟨p, -, hsound⟩
      obtain ⟨upTo, hupTo, hlabel⟩ := hsound.label _ List.mem_cons_self [.label "main" 3,
        .instruction [⟨.ident "bl", 3, 7⟩, ⟨.ident "printf", 3, 10⟩] 3] "__tramp_printf" 4 [] rfl
      have hends := (Emit.placesAll_emitItems hupTo).ends
      have hoffset : upTo.offset = 4 := hends
      rw [himage] at hsymbol
      rw [hoffset] at hlabel
      simp only [Except.map, Except.ok.injEq, hlabel] at hsymbol
      exact absurd hsymbol (by decide)

end Playground
