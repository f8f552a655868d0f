/-
The layout placement works out, as one walk over each section's items.  Both placement
and emission move by `itemSize`, so what one says about an offset the other can use.
-/
import Playground.Frontend.Emission
import Playground.Library.Walk
import Playground.Library.Spans

namespace Playground

/-- The bytes an item takes at `offset`, with the `.skip` sizes of its section. -/
def itemSize (sizes : Nat → Option Nat) (idx offset : Nat) : Item → Nat
  | .label _ _ => 0
  | .bytes bytes => bytes.length
  | .reserve n => n
  | .alignToBytes bytes maxSkip => alignPadding offset bytes maxSkip
  | .symbolAssignment _ _ _ => 0
  | .instruction tokens _ => Placing.instructionSize tokens
  | .dataExprs exprs width _ => exprs.length * width
  | .reserveExpr _ _ => (sizes idx).getD 0

/-- Where each item of a run starts. -/
abbrev itemPositions (sizes : Nat → Option Nat) (idx offset : Nat) (items : List Item) :
    List (Nat × Item) :=
  Walk.positions (itemSize sizes) idx offset items

/-- Where a run of items ends. -/
abbrev itemStop (sizes : Nat → Option Nat) (idx offset : Nat) (items : List Item) : Nat :=
  Walk.stop (itemSize sizes) idx offset items

namespace Placing

/-- What placing items of `kind` from index `idx` on leaves alone: the labels there are,
and the `.skip` sizes of other sections and of earlier items. -/
structure Keeps (kind : SectionKind) (idx : Nat) (l l' : Layout) : Prop where
  labelLines : ∀ name line, l.labelLines name = some line → l'.labelLines name = some line
  symbols : ∀ name line, l.labelLines name = some line → l'.symbols name = l.symbols name
  sizes : ∀ k i, k ≠ kind ∨ i < idx → l'.reserveSizes k i = l.reserveSizes k i

variable {kind : SectionKind} {idx : Nat} {p' : Placing}

theorem Keeps.refl (kind : SectionKind) (idx : Nat) (l : Layout) : Keeps kind idx l l :=
  ⟨fun _ _ h => h, fun _ _ _ => rfl, fun _ _ _ => rfl⟩

theorem Keeps.trans {idx' : Nat} {l l' l'' : Layout}
    (h : Keeps kind idx l l') (h' : Keeps kind idx' l' l'') (hidx : idx ≤ idx') :
    Keeps kind idx l l'' where
  labelLines name line hname := h'.labelLines name line (h.labelLines name line hname)
  symbols name line hname := by
    rw [h'.symbols name line (h.labelLines name line hname), h.symbols name line hname]
  sizes k i hk := by
    have hk' : k ≠ kind ∨ i < idx' := hk.imp_right fun hi => Nat.lt_of_lt_of_le hi hidx
    rw [h'.sizes k i hk', h.sizes k i hk]

/-- Labels and equates are told apart: a label has an address and is no equate, and an
equate with a value has one in the flat table. -/
structure Coherent (l : Layout) : Prop where
  label : ∀ name line, l.labelLines name = some line →
    l.equates name = [] ∧ (l.symbols name).isSome
  equate : ∀ name, l.symbols name = none → l.equates name = []

/-- The address of an instruction item of `.text`. -/
def instructionPc (kind : SectionKind) (entry : Nat × Item) : Option Word :=
  match kind, entry.2 with
  | .text, .instruction _ _ => some (kind.addr entry.1)
  | _, _ => none

/-- What one placed item does to the walk. -/
structure Placed (kind : SectionKind) (idx : Nat) (p : Placing) (item : Item) (p' : Placing) :
    Prop where
  keeps : Keeps kind idx p.layout p'.layout
  coherent : Coherent p.layout → Coherent p'.layout
  offset : p'.offset = p.offset + itemSize (p'.layout.reserveSizes kind) idx p.offset item
  fits : p'.offset ≤ sectionWindow
  label : ∀ name line, item = .label name line →
    p'.layout.labelLines name = some line ∧ p'.layout.symbols name = some (kind.addr p.offset)
  pcs : p'.layout.textInstrPcs =
    p.layout.textInstrPcs ++ (instructionPc kind (p.offset, item)).toList
  aligned : (instructionPc kind (p.offset, item)).isSome → p.offset % 4 = 0
  textLen : p'.layout.textLen = p.layout.textLen

/-- An item that takes bytes and leaves the layout as it was. -/
theorem Placed.of_layout {p : Placing} {item : Item} (hlayout : p'.layout = p.layout)
    (hoffset : p'.offset = p.offset + itemSize (p.layout.reserveSizes kind) idx p.offset item)
    (hfits : p'.offset ≤ sectionWindow) (hlabel : ∀ name line, item ≠ .label name line)
    (hpc : instructionPc kind (p.offset, item) = none) : Placed kind idx p item p' where
  keeps := hlayout ▸ Keeps.refl kind idx p.layout
  coherent h := hlayout ▸ h
  offset := by rw [hlayout]; exact hoffset
  fits := hfits
  label name line h := absurd h (hlabel name line)
  pcs := by simp [hlayout, hpc]
  aligned h := by simp [hpc] at h
  textLen := by rw [hlayout]

theorem placed_placeLabel {p : Placing} {name : String}
    {line : Nat} (h : placeLabel kind p name line = .ok p') (hfits : p'.offset ≤ sectionWindow) :
    Placed kind idx p (.label name line) p' := by
  simp only [placeLabel] at h
  split at h
  · cases h
  · rename_i hfresh
    split at h
    · cases h
    · rename_i hsymbol
      cases h
      have hne : ∀ other line', p.layout.labelLines other = some line' → other ≠ name := by
        rintro other line' hother rfl
        rw [hfresh] at hother
        cases hother
      constructor
      · constructor
        · intro other line' hother
          simpa [Function.update_of_ne (hne other line' hother)] using hother
        · intro other line' hother
          simp [Function.update_of_ne (hne other line' hother)]
        · exact fun _ _ _ => rfl
      · intro hcoherent
        constructor
        · intro other line' hother
          by_cases hname : other = name
          · subst hname
            exact ⟨hcoherent.equate other (by simpa using hsymbol), by simp⟩
          · simp only [Function.update_of_ne hname] at hother ⊢
            exact hcoherent.label other line' hother
        · intro other hother
          by_cases hname : other = name
          · simp [hname] at hother
          · simp only [Function.update_of_ne hname] at hother
            exact hcoherent.equate other hother
      · simp [itemSize]
      · exact hfits
      · intro name' line' heq
        cases heq
        simp
      · simp [instructionPc]
      · simp [instructionPc]
      · rfl

theorem placed_placeEquate {p : Placing} {name : String}
    {body : EquateBody} {line : Nat} (h : placeEquate kind p name body line = .ok p')
    (hfits : p'.offset ≤ sectionWindow) :
    Placed kind idx p (.symbolAssignment name body line) p' := by
  simp only [placeEquate] at h
  split at h
  · cases h
  · rename_i hfresh
    have hne : ∀ other line', p.layout.labelLines other = some line' → other ≠ name := by
      rintro other line' hother rfl
      rw [hfresh] at hother
      cases hother
    split at h
    · rename_i v hv
      cases h
      constructor
      · constructor
        · exact fun _ _ hother => hother
        · intro other line' hother
          simp [Scope.recordEquate, Function.update_of_ne (hne other line' hother)]
        · exact fun _ _ _ => rfl
      · intro hcoherent
        constructor
        · intro other line' hother
          simp only [Scope.recordEquate, Function.update_of_ne (hne other line' hother)]
          exact hcoherent.label other line' hother
        · intro other hother
          by_cases hname : other = name
          · simp [Scope.recordEquate, hname] at hother
          · simp only [Scope.recordEquate, Function.update_of_ne hname] at hother ⊢
            exact hcoherent.equate other hother
      · simp [itemSize]
      · exact hfits
      · intro name' line' heq
        cases heq
      · simp [instructionPc]
      · simp [instructionPc]
      · rfl
    · cases h
      constructor
      · exact ⟨fun _ _ hother => hother, fun _ _ _ => rfl, fun _ _ _ => rfl⟩
      · exact fun hcoherent => ⟨hcoherent.label, hcoherent.equate⟩
      · simp [itemSize]
      · exact hfits
      · intro name' line' heq
        cases heq
      · simp [instructionPc]
      · simp [instructionPc]
      · rfl

theorem placed_placeInstruction {p : Placing}
    {tokens : List Token} {line : Nat} (h : placeInstruction kind p tokens line = .ok p')
    (hfits : p'.offset ≤ sectionWindow) :
    Placed kind idx p (.instruction tokens line) p' := by
  simp only [placeInstruction] at h
  split at h
  · cases h
  · rename_i haligned
    cases h
    constructor
    · exact ⟨fun _ _ hother => hother, fun _ _ _ => rfl, fun _ _ _ => rfl⟩
    · exact fun hcoherent => ⟨hcoherent.label, hcoherent.equate⟩
    · rfl
    · exact hfits
    · intro name' line' heq
      cases heq
    · cases kind <;> simp [instructionPc]
    · intro hpc
      cases kind <;> simp [instructionPc] at hpc
      simpa using haligned
    · rfl

theorem saturatingAdd_of_le {a b : Nat} (h : saturatingAdd a b ≤ sectionWindow) :
    saturatingAdd a b = a + b := by
  unfold saturatingAdd sectionWindow at *
  omega

theorem placed_placeReserve {p : Placing}
    {tokens : List Token} {line : Nat} (h : placeReserve kind idx p tokens line = .ok p')
    (hfits : p'.offset ≤ sectionWindow) :
    Placed kind idx p (.reserveExpr tokens line) p' := by
  obtain ⟨value, -, h⟩ := bind_eq_ok h
  split at h
  · cases h
  · cases h
    constructor
    · refine ⟨fun _ _ hother => hother, fun _ _ _ => rfl, ?_⟩
      intro k i hki
      rcases hki with hk | hi
      · simp [Function.update_of_ne hk]
      · by_cases hk : k = kind
        · subst hk
          simp [Function.update_of_ne (Nat.ne_of_lt hi)]
        · simp [Function.update_of_ne hk]
    · exact fun hcoherent => ⟨hcoherent.label, hcoherent.equate⟩
    · simpa [itemSize] using saturatingAdd_of_le hfits
    · exact hfits
    · intro name' line' heq
      cases heq
    · simp [instructionPc]
    · simp [instructionPc]
    · rfl

/-- One item, placed and inside the window. -/
theorem placed_placeChecked {p : Placing} {item : Item}
    (h : placeChecked kind idx p item = .ok p') : Placed kind idx p item p' := by
  obtain ⟨q, hitem, hcheck⟩ := bind_eq_ok h
  split at hcheck
  · cases hcheck
  · rename_i hfits
    cases hcheck
    have hfits : p'.offset ≤ sectionWindow := Nat.le_of_not_lt hfits
    cases item with
    | label name line => exact placed_placeLabel hitem hfits
    | symbolAssignment name body line => exact placed_placeEquate hitem hfits
    | instruction tokens line => exact placed_placeInstruction hitem hfits
    | reserveExpr tokens line => exact placed_placeReserve hitem hfits
    | reserve n =>
        cases hitem
        exact .of_layout rfl (saturatingAdd_of_le hfits) hfits (by simp) (by simp [instructionPc])
    | bytes bytes =>
        cases hitem
        exact .of_layout rfl rfl hfits (by simp) (by simp [instructionPc])
    | alignToBytes bytes maxSkip =>
        cases hitem
        exact .of_layout rfl rfl hfits (by simp) (by simp [instructionPc])
    | dataExprs exprs width line =>
        cases hitem
        exact .of_layout rfl rfl hfits (by simp) (by simp [instructionPc])

/-- What a run of placed items comes to: every label at its position, every instruction
of `.text` at its own, aligned. -/
structure PlacedAll (kind : SectionKind) (idx : Nat) (p : Placing) (items : List Item)
    (p' : Placing) : Prop where
  keeps : Keeps kind idx p.layout p'.layout
  coherent : Coherent p.layout → Coherent p'.layout
  offset : p'.offset = itemStop (p'.layout.reserveSizes kind) idx p.offset items
  fits : p.offset ≤ sectionWindow → p'.offset ≤ sectionWindow
  label : ∀ o name line,
    (o, Item.label name line) ∈ itemPositions (p'.layout.reserveSizes kind) idx p.offset items →
    p'.layout.labelLines name = some line ∧ p'.layout.symbols name = some (kind.addr o)
  pcs : p'.layout.textInstrPcs = p.layout.textInstrPcs ++
    (itemPositions (p'.layout.reserveSizes kind) idx p.offset items).filterMap
      (instructionPc kind)
  aligned : ∀ entry ∈ itemPositions (p'.layout.reserveSizes kind) idx p.offset items,
    (instructionPc kind entry).isSome → entry.1 % 4 = 0
  textLen : p'.layout.textLen = p.layout.textLen

theorem placedAll_placeItems {p : Placing}
    {items : List Item} (h : placeItems kind idx p items = .ok p') :
    PlacedAll kind idx p items p' := by
  induction items generalizing idx p with
  | nil =>
      cases h
      constructor
      · exact Keeps.refl kind idx _
      · exact id
      · rfl
      · exact id
      · simp [Walk.positions]
      · simp [Walk.positions]
      · simp [Walk.positions]
      · rfl
  | cons item items ih =>
      obtain ⟨q, hitem, hrest⟩ := bind_eq_ok h
      have hfirst := placed_placeChecked hitem
      have hrest := ih hrest
      -- the size this item was given is not touched again
      have hsize : itemSize (q.layout.reserveSizes kind) idx p.offset item =
          itemSize (p'.layout.reserveSizes kind) idx p.offset item := by
        have hidx := hrest.keeps.sizes kind idx (Or.inr (Nat.lt_succ_self idx))
        cases item <;> simp [itemSize, hidx]
      have hoffset : q.offset =
          p.offset + itemSize (p'.layout.reserveSizes kind) idx p.offset item := by
        rw [hfirst.offset, hsize]
      have hpositions : itemPositions (p'.layout.reserveSizes kind) idx p.offset (item :: items) =
          (p.offset, item) :: itemPositions (p'.layout.reserveSizes kind) (idx + 1) q.offset
            items := by
        rw [hoffset]
        rfl
      constructor
      · exact hfirst.keeps.trans hrest.keeps (Nat.le_succ idx)
      · exact fun hcoherent => hrest.coherent (hfirst.coherent hcoherent)
      · rw [hrest.offset, hoffset]
        rfl
      · exact fun _ => hrest.fits hfirst.fits
      · intro o name line hmem
        rw [hpositions] at hmem
        rcases List.mem_cons.mp hmem with heq | hmem
        · cases heq
          have hlabel := hfirst.label name line rfl
          exact ⟨hrest.keeps.labelLines name line hlabel.1,
            (hrest.keeps.symbols name line hlabel.1).trans hlabel.2⟩
        · exact hrest.label o name line hmem
      · rw [hpositions, hrest.pcs, hfirst.pcs, List.filterMap_cons, List.append_assoc]
        cases instructionPc kind (p.offset, item) <;> rfl
      · intro entry hmem hpc
        rw [hpositions] at hmem
        rcases List.mem_cons.mp hmem with rfl | hmem
        · exact hfirst.aligned hpc
        · exact hrest.aligned entry hmem hpc
      · rw [hrest.textLen, hfirst.textLen]

end Placing

namespace Layout

/-- Where each item of a section starts. -/
def sectionPositions (l : Layout) (s : Section) : List (Nat × Item) :=
  itemPositions (l.reserveSizes s.kind) 0 0 s.items

def sectionStop (l : Layout) (s : Section) : Nat :=
  itemStop (l.reserveSizes s.kind) 0 0 s.items

/-- The addresses of the `.text` instructions among a section's items. -/
def sectionPcs (l : Layout) (s : Section) : List Word :=
  (l.sectionPositions s).filterMap (Placing.instructionPc s.kind)

/-- Labels stand where the walk over their section comes to them. -/
def LaysLabels (l : Layout) (sections : List Section) : Prop :=
  ∀ s ∈ sections, ∀ o name line, (o, Item.label name line) ∈ l.sectionPositions s →
    l.labelLines name = some line ∧ l.symbols name = some (s.kind.addr o)

/-- The layout agrees with the walk over each of the sections: they fit their windows,
and `.text` is as long as the walk says, with its instructions on word boundaries. -/
structure Lays (l : Layout) (sections : List Section) : Prop where
  fits : ∀ s ∈ sections, l.sectionStop s ≤ sectionWindow
  aligned : ∀ s ∈ sections, ∀ entry ∈ l.sectionPositions s,
    (Placing.instructionPc s.kind entry).isSome → entry.1 % 4 = 0
  textLen : ∀ s ∈ sections, s.kind = .text → l.textLen = l.sectionStop s

/-- What placing sections leaves alone: the labels there are, and the `.skip` sizes of
other sections. -/
structure Keeps (sections : List Section) (l l' : Layout) : Prop where
  labelLines : ∀ name line, l.labelLines name = some line → l'.labelLines name = some line
  symbols : ∀ name line, l.labelLines name = some line → l'.symbols name = l.symbols name
  sizes : ∀ k, k ∉ sections.map Section.kind → l'.reserveSizes k = l.reserveSizes k
  textLen : SectionKind.text ∉ sections.map Section.kind → l'.textLen = l.textLen

theorem sectionPositions_congr {l l' : Layout} {s : Section}
    (h : l'.reserveSizes s.kind = l.reserveSizes s.kind) :
    l'.sectionPositions s = l.sectionPositions s := by
  simp only [sectionPositions, h]

theorem sectionStop_congr {l l' : Layout} {s : Section}
    (h : l'.reserveSizes s.kind = l.reserveSizes s.kind) :
    l'.sectionStop s = l.sectionStop s := by
  simp only [sectionStop, h]

/-- A later layout still agrees with the walk if it keeps the sizes and `.text`. -/
theorem Lays.of_keeps {l l' : Layout} {sections : List Section} (h : l.Lays sections)
    (hsizes : ∀ s ∈ sections, l'.reserveSizes s.kind = l.reserveSizes s.kind)
    (htext : ∀ s ∈ sections, s.kind = .text → l'.textLen = l.textLen) : l'.Lays sections where
  fits s hs := by
    rw [sectionStop_congr (hsizes s hs)]
    exact h.fits s hs
  aligned s hs entry hmem hpc := by
    rw [sectionPositions_congr (hsizes s hs)] at hmem
    exact h.aligned s hs entry hmem hpc
  textLen s hs hkind := by
    rw [htext s hs hkind, sectionStop_congr (hsizes s hs)]
    exact h.textLen s hs hkind

theorem LaysLabels.of_keeps {l l' : Layout} {sections : List Section} (h : l.LaysLabels sections)
    (hsizes : ∀ s ∈ sections, l'.reserveSizes s.kind = l.reserveSizes s.kind)
    (hlines : ∀ name line, l.labelLines name = some line → l'.labelLines name = some line)
    (hsymbols : ∀ name line, l.labelLines name = some line → l'.symbols name = l.symbols name) :
    l'.LaysLabels sections := by
  intro s hs o name line hmem
  rw [sectionPositions_congr (hsizes s hs)] at hmem
  obtain ⟨hline, hsymbol⟩ := h s hs o name line hmem
  exact ⟨hlines name line hline, (hsymbols name line hline).trans hsymbol⟩

end Layout

variable {labelLines : String → Option Nat}

/-- One section: from offset zero, in its own window. -/
theorem lays_placeSection {l l' : Layout} {s : Section} (h : placeSection l s = .ok l') :
    l.Keeps [s] l' ∧ l'.Lays [s] ∧ l'.LaysLabels [s] ∧
      (Placing.Coherent l → Placing.Coherent l') ∧
      l'.textInstrPcs = l.textInstrPcs ++ l'.sectionPcs s := by
  obtain ⟨p, hitems, heq⟩ := bind_eq_ok h
  have hplaced := Placing.placedAll_placeItems hitems
  -- the section's length is all that is added after the walk
  have hsame : l' = { p.layout with textLen := l'.textLen } := by
    cases heq
    split <;> rfl
  have hlen : s.kind = .text → l'.textLen = p.offset := by
    cases heq
    intro hkind
    simp [hkind]
  have hlen' : s.kind ≠ .text → l'.textLen = l.textLen := by
    cases heq
    intro hkind
    simpa [hkind] using hplaced.textLen
  rw [hsame]
  refine ⟨⟨hplaced.keeps.labelLines, hplaced.keeps.symbols, ?_, ?_⟩, ⟨?_, ?_, ?_⟩, ?_, ?_, ?_⟩
  · intro k hk
    funext i
    exact hplaced.keeps.sizes k i (Or.inl (by simpa using hk))
  · intro hk
    exact hlen' fun hkind => hk (by simp [hkind])
  · intro s' hs'
    obtain rfl := List.mem_singleton.mp hs'
    have hfits := hplaced.fits (Nat.zero_le _)
    rw [hplaced.offset] at hfits
    exact hfits
  · intro s' hs' entry hmem
    obtain rfl := List.mem_singleton.mp hs'
    exact hplaced.aligned entry hmem
  · intro s' hs' hkind
    obtain rfl := List.mem_singleton.mp hs'
    exact (hlen hkind).trans hplaced.offset
  · intro s' hs' o name line hmem
    obtain rfl := List.mem_singleton.mp hs'
    exact hplaced.label o name line hmem
  · intro hcoherent
    have hnext := hplaced.coherent hcoherent
    exact ⟨hnext.label, hnext.equate⟩
  · exact hplaced.pcs

theorem lays_placeSections {l l' : Layout} {sections : List Section}
    (h : placeSections l sections = .ok l') (hnodup : (sections.map Section.kind).Nodup) :
    l.Keeps sections l' ∧ l'.Lays sections ∧ l'.LaysLabels sections ∧
      (Placing.Coherent l → Placing.Coherent l') ∧
      l'.textInstrPcs = l.textInstrPcs ++ sections.flatMap l'.sectionPcs := by
  induction sections generalizing l with
  | nil =>
      cases h
      exact ⟨⟨fun _ _ h => h, fun _ _ _ => rfl, fun _ _ => rfl, fun _ => rfl⟩,
        ⟨by simp, by simp, by simp⟩, by simp [Layout.LaysLabels], id, by simp⟩
  | cons s sections ih =>
      obtain ⟨m, hsection, hrest⟩ := bind_eq_ok h
      obtain ⟨hkeeps, hlays, hlabels, hcoherent, hpcs⟩ := lays_placeSection hsection
      simp only [List.map_cons, List.nodup_cons] at hnodup
      obtain ⟨hkeeps', hlays', hlabels', hcoherent', hpcs'⟩ := ih hrest hnodup.2
      -- no later section is of this kind
      have hsizes := hkeeps'.sizes s.kind hnodup.1
      have hhead : l'.Lays [s] := by
        apply hlays.of_keeps
        · simpa using hsizes
        · intro s' hs' hkind
          obtain rfl := List.mem_singleton.mp hs'
          exact hkeeps'.textLen (hkind ▸ hnodup.1)
      have hheadLabels : l'.LaysLabels [s] :=
        hlabels.of_keeps (by simpa using hsizes) hkeeps'.labelLines hkeeps'.symbols
      refine ⟨⟨?_, ?_, ?_, ?_⟩, ⟨?_, ?_, ?_⟩, ?_, hcoherent' ∘ hcoherent, ?_⟩
      · intro name line hname
        exact hkeeps'.labelLines name line (hkeeps.labelLines name line hname)
      · intro name line hname
        rw [hkeeps'.symbols name line (hkeeps.labelLines name line hname),
          hkeeps.symbols name line hname]
      · intro k hk
        simp only [List.map_cons, List.mem_cons, not_or] at hk
        rw [hkeeps'.sizes k hk.2, hkeeps.sizes k (by simpa using hk.1)]
      · intro hk
        simp only [List.map_cons, List.mem_cons, not_or] at hk
        rw [hkeeps'.textLen hk.2, hkeeps.textLen (by simpa using hk.1)]
      · intro s' hs'
        rcases List.mem_cons.mp hs' with rfl | hs'
        · exact hhead.fits s' (by simp)
        · exact hlays'.fits s' hs'
      · intro s' hs'
        rcases List.mem_cons.mp hs' with rfl | hs'
        · exact hhead.aligned s' (by simp)
        · exact hlays'.aligned s' hs'
      · intro s' hs'
        rcases List.mem_cons.mp hs' with rfl | hs'
        · exact hhead.textLen s' (by simp)
        · exact hlays'.textLen s' hs'
      · intro s' hs'
        rcases List.mem_cons.mp hs' with rfl | hs'
        · exact hheadLabels s' (by simp)
        · exact hlabels' s' hs'
      · have hsection : l'.sectionPcs s = m.sectionPcs s := by
          simp only [Layout.sectionPcs, Layout.sectionPositions_congr hsizes]
        rw [hpcs', hpcs, List.flatMap_cons, hsection, List.append_assoc]

theorem coherent_empty : Placing.Coherent Layout.empty :=
  ⟨fun _ _ h => by simp [Layout.empty] at h, fun _ _ => rfl⟩

/-- The symbols a label can be read by are as they were. -/
def Scope.KeepsLabels (labelLines : String → Option Nat) (s s' : Scope) : Prop :=
  ∀ name line, labelLines name = some line →
    s'.symbols name = s.symbols name ∧ s'.equates name = s.equates name

theorem Scope.KeepsLabels.trans {s s' s'' : Scope}
    (h : s.KeepsLabels labelLines s') (h' : s'.KeepsLabels labelLines s'') :
    s.KeepsLabels labelLines s'' := by
  intro name line hname
  have hfirst := h name line hname
  have hsecond := h' name line hname
  exact ⟨hsecond.1.trans hfirst.1, hsecond.2.trans hfirst.2⟩

theorem Scope.keepsLabels_recordEquate (s : Scope)
    {name : String} (h : labelLines name = none) (line : Nat) (value : Word) :
    s.KeepsLabels labelLines (s.recordEquate name line value) := by
  intro other line' hother
  have hne : other ≠ name := by
    rintro rfl
    rw [h] at hother
    cases hother
  simp [Scope.recordEquate, Function.update_of_ne hne]

/-- A pass stops at a label, so it defines none. -/
theorem keepsLabels_resolvePass {s s' : Scope} {pending left : List Assignment} {changed : Bool}
    (h : resolvePass labelLines s pending = .ok (s', left, changed)) :
    s.KeepsLabels labelLines s' := by
  induction pending generalizing s left changed with
  | nil =>
      cases h
      exact fun _ _ _ => ⟨rfl, rfl⟩
  | cons a pending ih =>
      simp only [resolvePass] at h
      split at h
      · cases h
      · rename_i hfree
        split at h
        · obtain ⟨⟨t, left', changed'⟩, hrest, heq⟩ := bind_eq_ok h
          cases heq
          exact (s.keepsLabels_recordEquate hfree _ _).trans (ih hrest)
        · obtain ⟨⟨t, left', changed'⟩, hrest, heq⟩ := bind_eq_ok h
          cases heq
          exact ih hrest

theorem keepsLabels_resolveRounds {n : Nat} {s s' : Scope} {pending left : List Assignment}
    (h : resolveRounds labelLines n s pending = .ok (s', left)) : s.KeepsLabels labelLines s' := by
  induction n generalizing s pending with
  | zero =>
      cases h
      exact fun _ _ _ => ⟨rfl, rfl⟩
  | succ n ih =>
      obtain ⟨⟨t, left', changed⟩, hpass, hrest⟩ := bind_eq_ok h
      have hfirst := keepsLabels_resolvePass hpass
      simp only at hrest
      split at hrest
      · exact hfirst.trans (ih hrest)
      · cases hrest
        exact hfirst

/-- Resolution leaves every label's address as placement gave it. -/
theorem keeps_resolveEquates {l l' : Layout} (h : resolveEquates l = .ok l')
    (hcoherent : ∀ name line, l.labelLines name = some line → l.equates name = []) :
    l'.labelLines = l.labelLines ∧ l'.reserveSizes = l.reserveSizes ∧
      l'.textInstrPcs = l.textInstrPcs ∧ l'.textLen = l.textLen ∧
      ∀ name line, l.labelLines name = some line → l'.symbols name = l.symbols name := by
  obtain ⟨⟨s, left⟩, hrounds, hrest⟩ := bind_eq_ok h
  have heq : l' = { l with toScope := s.pinFirst, assignments := left } := by
    cases left with
    | nil =>
        cases hrest
        rfl
    | cons a left =>
        obtain ⟨-, -, hrest⟩ := bind_eq_ok hrest
        cases hrest
        rfl
  subst heq
  refine ⟨rfl, rfl, rfl, rfl, ?_⟩
  intro name line hname
  have hkeeps := keepsLabels_resolveRounds hrounds name line hname
  simp [Scope.pinFirst, hkeeps, hcoherent name line hname, Scope.firstDefinition]

/-- The layout the pool is sized against agrees with the walk. -/
theorem lays_resolveLayout {program : Program} {host : HostTable} {l : Layout}
    (h : resolveLayout program host = .ok l) :
    l.Lays program.sections ∧ l.LaysLabels program.sections ∧
      l.textInstrPcs = program.sections.flatMap l.sectionPcs := by
  obtain ⟨m, hplace, hresolve⟩ := bind_eq_ok h
  obtain ⟨-, hlays, hlabels, hcoherent, hpcs⟩ := lays_placeSections hplace program.kinds_nodup
  have hcoherent := hcoherent coherent_empty
  obtain ⟨hlines, hsizes, hinstr, hlen, hsymbols⟩ :=
    keeps_resolveEquates hresolve (fun name line hname => (hcoherent.label name line hname).1)
  refine ⟨?_, ?_, ?_⟩
  · apply hlays.of_keeps
    · intro s _
      rw [hsizes]
      rfl
    · intro s _ _
      rw [hlen]
      rfl
  · apply hlabels.of_keeps
    · intro s _
      rw [hsizes]
      rfl
    · intro name line hname
      rw [hlines]
      exact hname
    · intro name line hname
      obtain ⟨v, hv⟩ := Option.isSome_iff_exists.mp (hcoherent.label name line hname).2
      rw [hsymbols name line hname]
      simp [Layout.seedHost, hv]
  · have hsection : l.sectionPcs = m.sectionPcs := by
      funext s
      simp only [Layout.sectionPcs, Layout.sectionPositions, hsizes]
      rfl
    rw [hinstr, hsection]
    show m.textInstrPcs = _
    simpa [Layout.empty] using hpcs

end Playground
