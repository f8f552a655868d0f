/-
Literal loads at run time.  An executed `ldr reg, =expr` leaves the constant of the first
load with its key; it is the value of the load's own operand exactly when the program
keeps to the condition stated here.
-/
import Playground.Frontend.LinkSound
import Playground.Frontend.PoolSlots
import Playground.Frontend.RoundTrip
import Playground.Isa.LoadSteps
import Playground.Machine.Loader

namespace Playground

open Spans

section
variable {encodeLine : EncodeLine} {program : Program} {layout : Layout} {pool : Pool}

/-- Each item of an emitted run was emitted where the walk puts it. -/
theorem Emit.emitItem_of_position {kind : SectionKind} {idx offset : Nat} {items : List Item}
    {out : Emitted} {entry : Nat × Item}
    (h : emitItems encodeLine program layout pool kind idx offset items = .ok out)
    (hentry : entry ∈ itemPositions (layout.reserveSizes kind) idx offset items) :
    ∃ idx' first, emitItem encodeLine program layout pool kind idx' entry.1 entry.2 = .ok first ∧
      (∀ w ∈ first.writes, w ∈ out.writes) ∧ first.offset ≤ out.offset := by
  induction items generalizing idx offset out with
  | nil => simp [Walk.positions] at hentry
  | cons item items ih =>
      obtain ⟨first, hfirst, h⟩ := bind_eq_ok h
      obtain ⟨rest, hrest, h⟩ := bind_eq_ok h
      cases h
      have hends := (places_emitItem hfirst).ends
      rcases List.mem_cons.mp hentry with rfl | hentry
      · refine ⟨idx, first, hfirst, ?_, ?_⟩
        · intro w hw
          exact List.mem_append_left _ hw
        · simp only [Emitted.followedBy]
          rw [(placesAll_emitItems hrest).ends]
          exact Walk.le_stop _ _ _ _
      · rw [← hends] at hentry
        obtain ⟨idx', found, hfound, hwrites, hle⟩ := ih hrest hentry
        refine ⟨idx', found, hfound, ?_, hle⟩
        intro w hw
        exact List.mem_append_right _ (hwrites w hw)

/-- A section's writes are among the image's. -/
theorem emitSections_mem {sections : List Section} {e : Emission} {s : Section}
    (h : emitSections encodeLine program layout pool sections = .ok e) (hs : s ∈ sections) :
    ∃ run, Emit.emitItems encodeLine program layout pool s.kind 0 0 s.items = .ok run ∧
      ∀ w ∈ run.writes, w ∈ e.writes := by
  induction sections generalizing e with
  | nil => simp at hs
  | cons t sections ih =>
      obtain ⟨run, hrun, h⟩ := bind_eq_ok h
      obtain ⟨rest, hrest, h⟩ := bind_eq_ok h
      cases h
      rcases List.mem_cons.mp hs with rfl | hs
      · exact ⟨run, hrun, fun w hw => List.mem_append_left _ hw⟩
      · obtain ⟨run', hrun', hwrites⟩ := ih hrest hs
        exact ⟨run', hrun', fun w hw => List.mem_append_right _ (hwrites w hw)⟩

/-- The word of an `ldr reg, =expr`. -/
theorem Emit.emitItem_constant {idx o : Nat} {l : LiteralLoad} {out : Emitted}
    (hl : LiteralLoad.ofTokens l.tokens l.line l.pc = some l) (hform : l.form = .constant)
    (hpc : l.pc = SectionKind.text.addr o)
    (h : emitItem encodeLine program layout pool .text idx o (.instruction l.tokens l.line) =
      .ok out) :
    ∃ rt sf word, parseLdrEqRt l.tokens l.line = .ok (rt, sf) ∧
      loadSlot pool sf rt l.key l.pc l.line = .ok word ∧
      (l.pc, wordBytes word) ∈ out.writes ∧ out.offset = o + 4 := by
  rcases LiteralLoad.ofTokens_cases hl with ⟨-, dotRelative, heq, hkey⟩ | ⟨reg, hlabel, -⟩
  · have hemit : emitInstruction encodeLine program layout pool l.tokens l.line o = .ok out := h
    unfold emitInstruction at hemit
    rw [extractLdrLabelLoad_of_ldrEq heq] at hemit
    obtain ⟨word, hword, hemit⟩ := bind_eq_ok hemit
    cases hemit
    unfold instructionWord at hword
    rw [heq] at hword
    obtain ⟨⟨rt, sf⟩, hrt, hword⟩ := bind_eq_ok hword
    refine ⟨rt, sf, word, hrt, ?_, ?_, rfl⟩
    · rw [← hpc, ← hkey] at hword
      exact hword
    · rw [hpc]
      exact List.mem_singleton_self _
  · rw [hform] at hlabel
    cases hlabel

/-- The words of an `ldr reg, label`. -/
theorem Emit.emitItem_label {vec : Assembler.VectorEncoders} (hvec : vec.LeavesLoads)
    {idx o : Nat} {l : LiteralLoad} {reg : String} {out : Emitted}
    (hl : LiteralLoad.ofTokens l.tokens l.line l.pc = some l) (hform : l.form = .label reg)
    (hpc : l.pc = SectionKind.text.addr o)
    (h : emitItem (Assembler.encodeLine vec) program layout pool .text idx o
      (.instruction l.tokens l.line) = .ok out) :
    ∃ view word, Assembler.loadView reg = some view ∧
      loadSlot pool true view.base l.key l.pc l.line = .ok word ∧
      (l.pc, wordBytes word) ∈ out.writes ∧
      (l.pc + 4, wordBytes (view.loadWord view.base)) ∈ out.writes ∧ out.offset = o + 8 := by
  rcases LiteralLoad.ofTokens_cases hl with ⟨hconstant, -⟩ | ⟨reg', hlabel, hload, hkey⟩
  · rw [hform] at hconstant
    cases hconstant
  · obtain rfl : reg = reg' := by
      rw [hform] at hlabel
      cases hlabel
      rfl
    have hemit : emitInstruction (Assembler.encodeLine vec) program layout pool l.tokens l.line o =
        .ok out := h
    unfold emitInstruction at hemit
    rw [hload] at hemit
    obtain ⟨rt, hrt, hemit⟩ := bind_eq_ok hemit
    obtain ⟨word, hword, hemit⟩ := bind_eq_ok hemit
    obtain ⟨word', hword', hemit⟩ := bind_eq_ok hemit
    cases hemit
    obtain ⟨dest, hdest⟩ : ∃ dest, parseLdrDest reg = some dest := by
      unfold addressRegister at hrt
      split at hrt
      · exact ⟨_, by assumption⟩
      · exact ⟨_, by assumption⟩
      · cases hrt
    obtain ⟨view, hview, hbase⟩ := Assembler.loadView_of_parseLdrDest hdest
    rw [Assembler.addressRegister_of_dest hdest, ← hbase] at hrt
    cases hrt
    obtain ⟨-, -, -, -, -, hfits⟩ := Assembler.loadView_cases hview
    have hbaseLt := Assembler.LoadView.base_lt hfits
    rw [Assembler.encodeLine_load hvec hview (by omega)] at hword'
    cases hword'
    refine ⟨view, word, hview, ?_, ?_, ?_, rfl⟩
    · have hkey' : l.key = (l.key.1, none) := by rw [← hkey]
      rw [hkey', hpc]
      exact hword
    · rw [hpc]
      exact List.mem_cons_self
    · rw [hpc]
      exact List.mem_cons_of_mem _ List.mem_cons_self

end

/-- A literal load is one of the items of `.text`, at the address the walk gives it. -/
theorem mem_literalLoads {sizes : Nat → Option Nat} {idx offset : Nat} {items : List Item}
    {l : LiteralLoad} (h : l ∈ literalLoads items
      ((itemPositions sizes idx offset items).filterMap (Placing.instructionPc .text))) :
    ∃ o, (o, Item.instruction l.tokens l.line) ∈ itemPositions sizes idx offset items ∧
      l.pc = SectionKind.text.addr o ∧ LiteralLoad.ofTokens l.tokens l.line l.pc = some l := by
  induction items generalizing idx offset with
  | nil => simp [literalLoads] at h
  | cons item items ih =>
      have hlater : l ∈ literalLoads items ((itemPositions sizes (idx + 1)
          (offset + itemSize sizes idx offset item) items).filterMap
            (Placing.instructionPc .text)) →
          ∃ o, (o, Item.instruction l.tokens l.line) ∈
              itemPositions sizes idx offset (item :: items) ∧
            l.pc = SectionKind.text.addr o ∧
            LiteralLoad.ofTokens l.tokens l.line l.pc = some l := by
        intro hl
        obtain ⟨o, hmem, hpc, hload⟩ := ih hl
        exact ⟨o, List.mem_cons_of_mem _ hmem, hpc, hload⟩
      cases item with
      | instruction tokens line =>
          simp only [Walk.positions, List.filterMap_cons, Placing.instructionPc, literalLoads,
            List.headD_cons, List.tail_cons, List.mem_append, Option.mem_toList] at h
          rcases h with h | h
          · obtain ⟨rfl, rfl, hpc⟩ := LiteralLoad.fields_ofTokens h
            refine ⟨offset, List.mem_cons_self, hpc, ?_⟩
            rw [hpc]
            exact h
          · exact hlater h
      | _ => exact hlater h

/-- The words of the pool, in order. -/
theorem mem_poolWrites {pool : Pool} {idx i : Nat} {values : List Word} {v : Word}
    (h : values[i]? = some v) :
    (pool.base + BitVec.ofNat 64 ((idx + i) * 8), Memory.leBytes 8 v.toNat) ∈
      poolWrites pool idx values := by
  induction values generalizing idx i with
  | nil => simp at h
  | cons value values ih =>
      cases i with
      | zero =>
          simp only [List.getElem?_cons_zero, Option.some.injEq] at h
          subst h
          exact List.mem_cons_self
      | succ i =>
          have hrest := @ih (idx + 1) i (by simpa using h)
          rw [Nat.add_right_comm, Nat.add_assoc] at hrest
          exact List.mem_cons_of_mem _ hrest

theorem loadSlot_ok {pool : Pool} {sf : Bool} {rt slot : Nat} {key : PoolKey} {pc : Word}
    {line : Nat} {word : BitVec 32} (h : Emit.loadSlot pool sf rt key pc line = .ok word)
    (hslot : pool.slots key = some slot) :
    encodeLdrLiteral sf rt (distance (pool.base + BitVec.ofNat 64 slot) pc) = .ok word := by
  unfold Emit.loadSlot at h
  rw [hslot] at h
  exact h

section
variable {encodeLine : EncodeLine} {host : HostTable} {program : Program} {p : Passes}

theorem literal_emitted (hp : runPasses encodeLine host program = .ok p) {l : LiteralLoad}
    (hl : l ∈ program.literalLoads p.layout) :
    ∃ o idx out, l.pc = SectionKind.text.addr o ∧
      LiteralLoad.ofTokens l.tokens l.line l.pc = some l ∧
      Emit.emitItem encodeLine program p.layout p.pool .text idx o
        (.instruction l.tokens l.line) = .ok out ∧
      (∀ w ∈ out.writes, w ∈ p.emission.writes) ∧ out.offset ≤ p.layout.textLen ∧
      p.layout.textLen ≤ sectionWindow := by
  obtain ⟨resolved, e, trampolines, hresolved, hsize, hsections, -, hcount, hemission⟩ :=
    runPasses_cases hp
  obtain ⟨hlays, hpcs⟩ := lays_runPasses hp
  have hemits := emitsAll_emitSections hsections program.kinds_nodup hlays.fits
  obtain ⟨s, hs, hkind⟩ := exists_text hemits hcount
  have hitems : program.textItems = s.items := textItems_eq hs program.kinds_nodup hkind
  have hrecorded : p.layout.textInstrPcs = p.layout.sectionPcs s := by
    rw [hpcs]
    apply flatMap_section _ hs program.kinds_nodup
    exact fun s' _ hne => sectionPcs_eq_nil (hkind ▸ hne)
  rw [Program.literalLoads, hitems, hrecorded, Layout.sectionPcs, hkind] at hl
  obtain ⟨o, hposition, hpc, hload⟩ := mem_literalLoads hl
  obtain ⟨run, hrun, hwrites⟩ := emitSections_mem hsections hs
  obtain ⟨idx, out, hout, hsub, hle⟩ := Emit.emitItem_of_position hrun hposition
  have hends := (Emit.placesAll_emitItems hrun).ends
  have htextLen := hlays.textLen s hs hkind
  have hfits := hlays.fits s hs
  rw [hkind] at hout
  refine ⟨o, idx, out, hpc, hload, hout, ?_, ?_, ?_⟩
  · intro w hw
    rw [hemission]
    exact List.mem_append_left _ (List.mem_append_left _ (hwrites w (hsub w hw)))
  · rw [htextLen, Layout.sectionStop, ← hends]
    exact hle
  · rw [htextLen]
    exact hfits

end

/-- A machine about to execute a literal load of an image, with its words and the pool as
the image has them. -/
structure Ready (image : LinkedImage) (pool : Pool) (l : LiteralLoad) (c : Cpu) : Prop where
  pc : c.regs.pc = l.pc
  textEnd : c.textEnd = some image.textEnd
  code : ∀ w ∈ image.writes, w.1 = l.pc ∨ l.form ≠ .constant ∧ w.1 = l.pc + 4 → c.mem.Holds w
  pool : ∀ w ∈ poolWrites pool 0 pool.values, c.mem.Holds w

/-- Executing the load leaves in its register what its own operand stands for: the value
of `=expr`, or the word memory has at the label. -/
def LiteralLoad.LoadsOwn (platform : Platform) (image : LinkedImage) (pool : Pool) (s : Scope)
    (l : LiteralLoad) : Prop :=
  match l.form with
  | .constant => ∀ rt sf, parseLdrEqRt l.tokens l.line = .ok (rt, sf) →
      ∃ v, l.value s = .ok v ∧ ∀ c, Ready image pool l c →
        (c.instructionStep platform l.pc).1.regs.gprValue rt true = narrow sf v
  | .label reg => ∃ view a, Assembler.loadView reg = some view ∧ l.value s = .ok a ∧
      ∀ c, Ready image pool l c →
        let loaded := (c.instructionStep platform l.pc).1
        loaded.regs.gprValue view.base true = a ∧
          ∀ v, Execute.nullPageLimit ≤ a.toNat → c.mem.readLe a view.bytes = .ok v →
            view.read (loaded.instructionStep platform (l.pc + 4)).1.regs = v

/-- Every literal load loads its own value, and loads share a slot only when their values
are equal. -/
structure LoadOwnValues (platform : Platform) (image : LinkedImage) (pool : Pool) (s : Scope)
    (loads : List LiteralLoad) : Prop where
  own : ∀ l ∈ loads, l.LoadsOwn platform image pool s
  shared : ∀ a ∈ loads, ∀ b ∈ loads, pool.slots a.key = pool.slots b.key → a.value s = b.value s

/-- What the load makes of a constant `w` of the pool is what it should make of `v`. -/
def LiteralLoad.Takes (l : LiteralLoad) (v w : Word) : Prop :=
  match l.form with
  | .constant => ∀ rt sf, parseLdrEqRt l.tokens l.line = .ok (rt, sf) →
      narrow sf v = if rt < 31 then narrow sf w else 0
  | .label _ => v = w

/-- Every operand has a value at its own line, loads with one key have one value, and the
operand's text, read again at the first of them, gives it. -/
structure KeepValues (s : Scope) (loads : List LiteralLoad) : Prop where
  evaluates : ∀ l ∈ loads, ∃ v, l.value s = .ok v
  alike : ∀ a ∈ loads, ∀ b ∈ loads, a.key = b.key → a.value s = b.value s
  readBack : ∀ l ∈ loads, ∀ first, firstLoad loads l.key = some first →
    ∀ v w, l.value s = .ok v → first.pooled s = .ok w → l.Takes v w

section
variable {V : Type} {vec : Assembler.VectorEncoders} (unit : VectorUnit V) {host : HostTable}
  (syscall : Nat → HostFn) {program : Program} {p : Passes} {l : LiteralLoad}
  (entryPoint : Word) {w : Word} {i : Nat}

theorem addr_ne_textEnd {layout : Layout} {o : Nat} (h : o < layout.textLen)
    (hfits : layout.textLen ≤ sectionWindow) :
    some (SectionKind.text.addr layout.textLen) ≠ some (SectionKind.text.addr o) := by
  intro heq
  have htoNat := congrArg BitVec.toNat (Option.some.inj heq)
  rw [SectionKind.text.toNat_addr hfits, SectionKind.text.toNat_addr (by omega)] at htoNat
  omega

/-- An executed `ldr reg, =expr` leaves the constant of its slot. -/
theorem constant_loads (hp : runPasses (Assembler.encodeLine vec) host program = .ok p)
    (hl : l ∈ program.literalLoads p.layout) (hform : l.form = .constant)
    (hslot : p.pool.slots l.key = some (poolCell i)) (hvalue : p.pool.values[i]? = some w) :
    ∃ rt sf, parseLdrEqRt l.tokens l.line = .ok (rt, sf) ∧
      ∀ c, Ready (p.image entryPoint) p.pool l c →
        (c.instructionStep (isaPlatform unit host syscall) l.pc).1.regs.gprValue rt true =
          if rt < 31 then narrow sf w else 0 := by
  obtain ⟨o, idx, out, hpc, hload, hout, hwrites, hle, hfits⟩ := literal_emitted hp hl
  obtain ⟨rt, sf, word, hrt, hword, hwritten, hoffset⟩ :=
    Emit.emitItem_constant hload hform hpc hout
  refine ⟨rt, sf, hrt, fun c hready => ?_⟩
  have hend : c.textEnd ≠ some l.pc := by
    rw [hready.textEnd, hpc]
    exact addr_ne_textEnd (by omega) hfits
  have hpool := hready.pool _ (mem_poolWrites hvalue)
  rw [Nat.zero_add] at hpool
  exact (Cpu.instructionStep_ldrLiteral hend hready.pc
    (hready.code _ (hwrites _ hwritten) (Or.inl rfl)) (loadSlot_ok hword hslot) hpool).1

/-- An executed `ldr reg, label` leaves the constant of its slot in the address register
and then the word memory has there. -/
theorem label_loads (hvec : vec.LeavesLoads)
    (hp : runPasses (Assembler.encodeLine vec) host program = .ok p)
    (hl : l ∈ program.literalLoads p.layout) {reg : String} (hform : l.form = .label reg)
    (hslot : p.pool.slots l.key = some (poolCell i)) (hvalue : p.pool.values[i]? = some w) :
    ∃ view, Assembler.loadView reg = some view ∧
      ∀ c, Ready (p.image entryPoint) p.pool l c →
        let loaded := (c.instructionStep (isaPlatform unit host syscall) l.pc).1
        loaded.regs.gprValue view.base true = w ∧
          ∀ v, Execute.nullPageLimit ≤ w.toNat → c.mem.readLe w view.bytes = .ok v →
            view.read (loaded.instructionStep (isaPlatform unit host syscall)
              (l.pc + 4)).1.regs = v := by
  obtain ⟨o, idx, out, hpc, hload, hout, hwrites, hle, hfits⟩ := literal_emitted hp hl
  obtain ⟨view, word, hview, hword, hfirst, hsecond, hoffset⟩ :=
    Emit.emitItem_label hvec hload hform hpc hout
  refine ⟨view, hview, fun c hready => ?_⟩
  obtain ⟨-, -, -, -, -, hviewFits⟩ := Assembler.loadView_cases hview
  have hbase := Assembler.LoadView.base_lt hviewFits
  have hend : c.textEnd ≠ some l.pc := by
    rw [hready.textEnd, hpc]
    exact addr_ne_textEnd (by omega) hfits
  have hpool := hready.pool _ (mem_poolWrites hvalue)
  rw [Nat.zero_add] at hpool
  obtain ⟨hregister, hmem, hkept⟩ := @Cpu.instructionStep_ldrLiteral V unit host syscall c l.pc
    _ _ _ _ _ hend hready.pc (hready.code _ (hwrites _ hfirst) (Or.inl rfl))
    (loadSlot_ok hword hslot) hpool
  rw [if_pos hbase] at hregister
  refine ⟨hregister, ?_⟩
  intro v hguest hread
  have hend' : (c.instructionStep (isaPlatform unit host syscall) l.pc).1.textEnd ≠
      some (l.pc + 4) := by
    have hnext : SectionKind.text.addr o + 4 = SectionKind.text.addr (o + 4) := addr_add _ o 4
    rw [hkept, hready.textEnd, hpc, hnext]
    exact addr_ne_textEnd (by omega) hfits
  have hnarrow : narrow true w = w := rfl
  rw [hnarrow] at hregister
  apply Cpu.instructionStep_loadWord hviewFits hbase hend'
  · rw [hmem]
    refine hready.code _ (hwrites _ hsecond) (Or.inr ⟨?_, rfl⟩)
    rw [hform]
    exact LiteralForm.noConfusion
  · rw [hregister]
    exact hguest
  · rw [hregister, hmem]
    exact hread

/-- A machine that stands at a load, with an image in its memory. -/
def standingAt (image : LinkedImage) (l : LiteralLoad) : Cpu where
  toCopied := Cpu.idleState
  machine := ⟨Cpu.idleRegs.writePc l.pc, imageMemory image.writes, HeapState.new⟩
  frames := CallStack.empty
  lastCall := default
  callScratch := default
  stdout := []
  stderr := []
  snapshotsPaused := false
  pendingSleepNs := none
  refundStepsTotal := 0
  refundOutputTotal := 0
  maxTotalSteps := maxTotalSteps
  outputTotal := 0
  abortMessage := none
  textEnd := some image.textEnd
  trampolineBase := image.trampolineBase
  trampolineNames := image.trampolineNames
  clobberNotes := []
  clobberNoted := 0
  snapshots := ⟨[], snapshotCapacity⟩

theorem ready_standingAt {encodeLine : EncodeLine}
    (hp : runPasses encodeLine host program = .ok p)
    (hl : l ∈ program.literalLoads p.layout) :
    Ready (p.image entryPoint) p.pool l (standingAt (p.image entryPoint) l) := by
  obtain ⟨o, idx, out, hpc, hload, hout, -, hle, hfits⟩ := literal_emitted hp hl
  obtain ⟨resolved, e, trampolines, -, hsize, -, htramp, -, hemission⟩ := runPasses_cases hp
  obtain ⟨hpool, -, symbols, hlayout, -⟩ := sizeLiteralPool_spec hsize
  have hsound := bytesSound_runPasses hp entryPoint
  have hends := (Emit.places_emitItem hout).ends
  simp only [itemSize, Placing.instructionSize] at hends
  constructor
  · rfl
  · rfl
  · intro w hw haddr
    apply holds_imageMemory hsound.apart hw
    -- the write starts inside `.text`
    have hstart : ∃ o', o' < p.layout.textLen ∧ w.1 = SectionKind.text.addr o' := by
      rcases haddr with haddr | ⟨hform, haddr⟩
      · refine ⟨o, ?_, by rw [haddr, hpc]⟩
        split at hends <;> omega
      · rcases LiteralLoad.ofTokens_cases hload with ⟨hconstant, -⟩ | ⟨reg, -, hlabel, -⟩
        · exact absurd hconstant hform
        · rw [hlabel] at hends
          simp only [Option.isSome_some, if_true] at hends
          exact ⟨o + 4, by omega, by rw [haddr, hpc]; exact addr_add _ o 4⟩
    obtain ⟨o', ho', hw'⟩ := hstart
    have hbelow : w.1.toNat < SectionKind.text.start + sectionWindow := by
      rw [hw', SectionKind.text.toNat_addr (by omega)]
      omega
    rcases hsound.window w hw with ⟨s, -, run, -, -, hinside⟩ | ⟨-, -, -, hinside⟩
    · by_cases hkind : s.kind = .text
      · rw [hkind] at hinside
        exact hinside
      · have hlo := hinside.1
        simp only [writeSpan] at hlo
        have hleast : SectionKind.text.start + sectionWindow ≤ s.kind.start := by
          cases hk : s.kind with
          | text => exact absurd hk hkind
          | _ => decide
        omega
    · exact hinside
  · intro w hw
    have hmem : w ∈ (p.image entryPoint).writes := by
      simp only [Passes.image, hemission]
      exact List.mem_append_right _ hw
    apply holds_imageMemory hsound.apart hmem
    have hpool' : PoolFits p.layout.textLen p.pool := by
      rw [hlayout]
      exact hpool
    have htail := (chained_tail hpool' htramp).inside (writeSpan w)
      (List.mem_map_of_mem (List.mem_append_right _ hw))
    exact htail.mono (Nat.le_add_right _ _) (Nat.le_refl _)

/-- A load loads its own value exactly when it takes its slot's constant for it. -/
theorem loadsOwn_iff (hvec : vec.LeavesLoads)
    (hp : runPasses (Assembler.encodeLine vec) host program = .ok p) {s : Scope} {v : Word}
    (hl : l ∈ program.literalLoads p.layout)
    (hslot : p.pool.slots l.key = some (poolCell i)) (hvalue : p.pool.values[i]? = some w)
    (hown : l.value s = .ok v) :
    l.LoadsOwn (isaPlatform unit host syscall) (p.image entryPoint) p.pool s ↔ l.Takes v w := by
  have hready := ready_standingAt entryPoint hp hl
  unfold LiteralLoad.LoadsOwn LiteralLoad.Takes
  cases hform : l.form with
  | constant =>
      obtain ⟨rt, sf, hrt, hloads⟩ := constant_loads unit syscall entryPoint
        hp hl hform hslot hvalue
      constructor
      · intro h rt' sf' hrt'
        obtain ⟨v', hv', hregister⟩ := h rt' sf' hrt'
        rw [hrt] at hrt'
        cases hrt'
        rw [hown] at hv'
        cases hv'
        rw [← hregister _ hready]
        exact hloads _ hready
      · intro h rt' sf' hrt'
        refine ⟨v, hown, fun c hc => ?_⟩
        rw [h rt' sf' hrt']
        rw [hrt] at hrt'
        cases hrt'
        exact hloads c hc
  | label reg =>
      obtain ⟨view, hview, hloads⟩ := label_loads unit syscall entryPoint
        hvec hp hl hform hslot hvalue
      constructor
      · rintro ⟨view', a, hview', ha, h⟩
        rw [hview] at hview'
        cases hview'
        rw [hown] at ha
        cases ha
        rw [← (h _ hready).1]
        exact (hloads _ hready).1
      · rintro rfl
        exact ⟨view, v, hview, hown, hloads⟩

end

def Program.KeepsLiteralValues (program : Program) (host : HostTable) : Prop :=
  ∀ resolved, resolveLayout program host = .ok resolved →
    KeepValues resolved.toScope (program.literalLoads resolved)

/-- Every literal load of an accepted program loads what its own line says exactly when
the operands have values, loads with the same operand text have the same one, and the
text read again at the first of them gives it. -/
theorem literalLoads_iff {V : Type} {vec : Assembler.VectorEncoders} (hvec : vec.LeavesLoads)
    (unit : VectorUnit V) {host : HostTable} (syscall : Nat → HostFn) {program : Program}
    {image : LinkedImage} (h : link (Assembler.encodeLine vec) host program = .ok image) :
    (∃ p resolved, runPasses (Assembler.encodeLine vec) host program = .ok p ∧
      resolveLayout program host = .ok resolved ∧
      LoadOwnValues (isaPlatform unit host syscall) image p.pool resolved.toScope
        (program.literalLoads resolved)) ↔
      program.KeepsLiteralValues host := by
  obtain ⟨p, entryPoint, hp, rfl⟩ := link_cases h
  obtain ⟨resolved, e, trampolines, hresolved, hsize, -⟩ := runPasses_cases hp
  obtain ⟨-, -, symbols, hlayout, -⟩ := sizeLiteralPool_spec hsize
  obtain ⟨hslots, hshare⟩ := sizeLiteralPool_slots hsize
  have hloads : program.literalLoads p.layout = program.literalLoads resolved := by
    rw [hlayout]
    rfl
  constructor
  · rintro ⟨q, resolved', hq, hresolved', hown⟩ resolved'' hresolved''
    rw [hp] at hq
    cases hq
    rw [hresolved] at hresolved' hresolved''
    cases hresolved'
    cases hresolved''
    have hvalue : ∀ l ∈ program.literalLoads resolved, ∃ v, l.value resolved.toScope = .ok v := by
      intro l hl
      have hload := hown.own l hl
      obtain ⟨i, w, hslot, hw, -⟩ := hslots l hl
      unfold LiteralLoad.LoadsOwn at hload
      cases hform : l.form with
      | constant =>
          rw [hform] at hload
          obtain ⟨rt, sf, hrt, -⟩ := constant_loads unit syscall entryPoint
            hp (hloads ▸ hl) hform hslot hw
          obtain ⟨v, hv, -⟩ := hload rt sf hrt
          exact ⟨v, hv⟩
      | label reg =>
          rw [hform] at hload
          obtain ⟨-, a, -, ha, -⟩ := hload
          exact ⟨a, ha⟩
    refine ⟨hvalue, ?_, ?_⟩
    · intro a ha b hb hkey
      exact hown.shared a ha b hb (by rw [hkey])
    · intro l hl first hfirst v w hv hw
      obtain ⟨i, w', hslot, hw', first', hfirst', hpooled⟩ := hslots l hl
      rw [hfirst] at hfirst'
      cases hfirst'
      rw [hw] at hpooled
      cases hpooled
      exact (loadsOwn_iff unit syscall entryPoint hvec hp (hloads ▸ hl) hslot hw' hv).mp
        (hown.own l hl)
  · intro hkeep
    have hkeep := hkeep resolved hresolved
    refine ⟨p, resolved, hp, hresolved, ?_, ?_⟩
    · intro l hl
      obtain ⟨v, hv⟩ := hkeep.evaluates l hl
      obtain ⟨i, w, hslot, hw, first, hfirst, hpooled⟩ := hslots l hl
      exact (loadsOwn_iff unit syscall entryPoint hvec hp (hloads ▸ hl) hslot hw hv).mpr
        (hkeep.readBack l hl first hfirst v w hv hpooled)
    · intro a ha b hb hslot
      exact hkeep.alike a ha b hb (hshare a ha b hb hslot)

section Operands

variable {s : Scope}

theorem eq_ok_of_toOption {ε α : Type} {x : Except ε α} {a : α} (h : x.toOption = some a) :
    x = .ok a := by
  cases x with
  | ok b => exact congrArg Except.ok (Option.some.inj h)
  | error e => cases h

theorem toOption_evaluateLinked (tokens : List Token) (s : Scope) (here : Word) (line : Nat) :
    (Operands.evaluateLinked tokens s here line).toOption =
      (evaluate tokens (fun name => s.symbolAt name line) here line).toOption := by
  unfold Operands.evaluateLinked
  cases evaluate tokens (fun name => s.symbolAt name line) here line with
  | ok v => rfl
  | error e =>
      simp only
      split <;> rfl

namespace LiteralLoad

variable {l : LiteralLoad} {v : Word}

/-- The text of the operand keeps its meaning where the pool reads it. -/
def KeepsText (s : Scope) (l : LiteralLoad) : Prop :=
  Expr.Keeps (fun name => s.symbolAt name l.line) (l.key.2.getD 0) (l.operand.map Token.kind)

/-- The pool's constant for a load is the operand's value just when the text keeps its
meaning. -/
theorem pooled_iff_keepsText (hslice : Slice l.operand)
    (hdot : l.form = .constant ∨ ∀ tok ∈ l.operand, tok.kind ≠ .dot) (hv : l.value s = .ok v) :
    l.pooled s = .ok v ↔ l.KeepsText s := by
  have hown : evaluate l.operand (fun name => s.symbolAt name l.line) l.pc l.line = .ok v :=
    eq_ok_of_toOption ((toOption_evaluateLinked _ _ _ _).symm.trans (congrArg _ hv))
  have hhere : evaluate l.operand (fun name => s.symbolAt name l.line) (l.key.2.getD 0) l.line =
      .ok v := by
    by_cases hdots : ∀ tok ∈ l.operand, tok.kind ≠ .dot
    · exact Expr.evaluate_anywhere hown hdots _
    · have hform := hdot.resolve_right hdots
      have hany : (l.operand.any fun t => t.kind = .dot) = true := by
        push Not at hdots
        obtain ⟨tok, htok, hkind⟩ := hdots
        exact List.any_eq_true.mpr ⟨tok, htok, decide_eq_true hkind⟩
      have haddress : l.key.2 = some l.pc := if_pos ⟨hform, hany⟩
      rw [haddress]
      exact hown
  have hread : (l.pooled s).toOption = (Expr.evaluateText (stringifyTokens l.operand)
      (fun name => s.symbolAt name l.line) (l.key.2.getD 0) l.line).toOption := by
    show (resolveLdrEqTarget (stringifyTokens l.operand) s _ _).toOption = _
    unfold resolveLdrEqTarget Expr.evaluateText
    cases lex (stringifyTokens l.operand) l.line with
    | error e => rfl
    | ok tokens => exact toOption_evaluateLinked _ _ _ _
  have hround : Expr.RoundTrips stringifyTokens l.operand _ _ _ ↔ l.KeepsText s :=
    Expr.roundTrips_iff hslice (writes_stringifyFrom l.operand) rfl l.line
  rw [Expr.RoundTrips, ← hread, hhere] at hround
  exact Iff.trans ⟨fun h => congrArg _ h, eq_ok_of_toOption⟩ hround

end LiteralLoad

/-- A program whose operands have values, one for each text, that keep their meaning as text,
and whose `ldr reg, =expr` name no zero register. -/
theorem keepValues_of_keepsText {loads : List LiteralLoad}
    (hvalues : ∀ l ∈ loads, ∃ v, l.value s = .ok v)
    (halike : ∀ a ∈ loads, ∀ b ∈ loads, a.key = b.key → a.value s = b.value s)
    (hslice : ∀ l ∈ loads, Slice l.operand)
    (hdot : ∀ l ∈ loads, l.form = .constant ∨ ∀ tok ∈ l.operand, tok.kind ≠ .dot)
    (hreg : ∀ l ∈ loads, l.form = .constant → ∀ rt sf,
      parseLdrEqRt l.tokens l.line = .ok (rt, sf) → rt < 31)
    (hkeeps : ∀ l ∈ loads, l.KeepsText s) : KeepValues s loads := by
  refine ⟨hvalues, halike, fun l hl first hfirst v w hv hw => ?_⟩
  have hmem : first ∈ loads := List.mem_of_find?_eq_some hfirst
  have hkey : first.key = l.key := by
    have hfound := List.find?_some hfirst
    exact of_decide_eq_true hfound
  have hown : first.value s = .ok v := (halike first hmem l hl hkey).trans hv
  have hpooled := (LiteralLoad.pooled_iff_keepsText (hslice first hmem) (hdot first hmem) hown).mpr
    (hkeeps first hmem)
  rw [hw] at hpooled
  cases hpooled
  unfold LiteralLoad.Takes
  cases hform : l.form with
  | constant =>
      intro rt sf hrt
      rw [if_pos (hreg l hl hform rt sf hrt)]
  | label reg => rfl

end Operands

/-- A machine without a vector unit. -/
def scalarUnit : VectorUnit Empty where
  decodeFpGroup _ := .error (.runtimeError "no vector unit")
  decodeSimdLdstStructure _ := none
  run instr := nomatch instr
  moves instr := nomatch instr

theorem oneLine_one : '\n' ∉ "1".toList := by decide

theorem oneLine_two : '\n' ∉ "2".toList := by decide

/-- `A = 1`, `ldr x0, =A`, a second equate of a given name, and `ldr x1, =A` again. -/
def twoLoads (name : String) : Program where
  sections := [⟨.text, [
    .symbolAssignment "A" ⟨"1", oneLine_one⟩ 3,
    .label "main" 4,
    .instruction [⟨.ident "ldr", 4, 7⟩, ⟨.ident "x0", 4, 11⟩, ⟨.comma, 4, 13⟩, ⟨.equals, 4, 15⟩,
      ⟨.ident "A", 4, 16⟩] 4,
    .symbolAssignment name ⟨"2", oneLine_two⟩ 5,
    .instruction [⟨.ident "ldr", 6, 1⟩, ⟨.ident "x1", 6, 5⟩, ⟨.comma, 6, 7⟩, ⟨.equals, 6, 9⟩,
      ⟨.ident "A", 6, 10⟩] 6]⟩]
  globals := ["main"]
  expandedSource := "\t.text\n\t.global main\nA = 1\nmain:\tldr x0, =A\n" ++ name ++
    " = 2\n\tldr x1, =A\n"
  kinds_nodup := List.nodup_singleton _

def noHost : HostTable := ⟨[]⟩

def noSyscall (_ : Nat) : HostFn := fun side _ _ => .done (side, .ok .continue)

/-- What decides the condition for one load. -/
structure LoadFacts where
  form : LiteralForm
  key : PoolKey
  value : Option Word
  pooled : Option Word
  numbered : Option Bool
deriving DecidableEq

def LiteralLoad.facts (s : Scope) (l : LiteralLoad) : LoadFacts where
  form := l.form
  key := l.key
  value := (l.value s).toOption
  pooled := (l.pooled s).toOption
  numbered := (parseLdrEqRt l.tokens l.line).toOption.map fun dest => decide (dest.1 < 31)

/-- With another name for the second equate both loads load 1. -/
theorem literalLoads_iff_twoLoads :
    ∃ image, link (Assembler.encodeLine scalarEncoders) noHost (twoLoads "B") = .ok image ∧
      ∃ p resolved, runPasses (Assembler.encodeLine scalarEncoders) noHost (twoLoads "B") = .ok p ∧
        resolveLayout (twoLoads "B") noHost = .ok resolved ∧
        LoadOwnValues (isaPlatform scalarUnit noHost noSyscall) image p.pool resolved.toScope
          ((twoLoads "B").literalLoads resolved) := by
  have hok : (link (Assembler.encodeLine scalarEncoders) noHost (twoLoads "B")).isOk = true := by
    decide
  have hfacts : (resolveLayout (twoLoads "B") noHost).toOption.map (fun resolved =>
      ((twoLoads "B").literalLoads resolved).map (LiteralLoad.facts resolved.toScope)) =
      some (List.replicate 2 ⟨.constant, ("A", none), some 1, some 1, some true⟩) := by
    decide
  cases himage : link (Assembler.encodeLine scalarEncoders) noHost (twoLoads "B") with
  | error e => simp [himage, Except.isOk, Except.toBool] at hok
  | ok image =>
      refine ⟨image, rfl, (literalLoads_iff ⟨rfl, rfl⟩ scalarUnit noSyscall himage).mpr ?_⟩
      intro resolved hresolved
      rw [hresolved] at hfacts
      have hload : ∀ l ∈ (twoLoads "B").literalLoads resolved, l.facts resolved.toScope =
          ⟨.constant, ("A", none), some 1, some 1, some true⟩ := by
        intro l hl
        have hmap : ((twoLoads "B").literalLoads resolved).map
            (LiteralLoad.facts resolved.toScope) = _ := Option.some.inj hfacts
        have hmem : l.facts resolved.toScope ∈ ((twoLoads "B").literalLoads resolved).map
            (LiteralLoad.facts resolved.toScope) := List.mem_map_of_mem hl
        rw [hmap] at hmem
        exact List.eq_of_mem_replicate hmem
      have hvalue : ∀ l ∈ (twoLoads "B").literalLoads resolved,
          l.value resolved.toScope = .ok 1 := by
        intro l hl
        exact eq_ok_of_toOption (congrArg LoadFacts.value (hload l hl))
      constructor
      · exact fun l hl => ⟨1, hvalue l hl⟩
      · intro a ha b hb _
        rw [hvalue a ha, hvalue b hb]
      · intro l hl first hfirst v w hv hw
        have hpooled : first.pooled resolved.toScope = .ok 1 :=
          eq_ok_of_toOption (congrArg LoadFacts.pooled
            (hload first (List.mem_of_find?_eq_some hfirst)))
        obtain rfl : 1 = v := by simpa [hvalue l hl] using hv
        obtain rfl : 1 = w := by simpa [hpooled] using hw
        have hform : l.form = .constant := congrArg LoadFacts.form (hload l hl)
        have hrt := congrArg LoadFacts.numbered (hload l hl)
        unfold LiteralLoad.Takes
        rw [hform]
        intro rt sf hparse
        have hlt : rt < 31 := by simpa [LiteralLoad.facts, hparse, Except.toOption] using hrt
        rw [if_pos hlt]

/-- Redefined between the loads, `A` keeps its first value in the shared slot. -/
theorem not_loadOwnValues_twoLoads :
    ∃ image, link (Assembler.encodeLine scalarEncoders) noHost (twoLoads "A") = .ok image ∧
      ¬ ∃ p resolved,
        runPasses (Assembler.encodeLine scalarEncoders) noHost (twoLoads "A") = .ok p ∧
        resolveLayout (twoLoads "A") noHost = .ok resolved ∧
        LoadOwnValues (isaPlatform scalarUnit noHost noSyscall) image p.pool resolved.toScope
          ((twoLoads "A").literalLoads resolved) := by
  have hok : (link (Assembler.encodeLine scalarEncoders) noHost (twoLoads "A")).isOk = true := by
    decide
  have hfacts : (resolveLayout (twoLoads "A") noHost).toOption.map (fun resolved =>
      ((twoLoads "A").literalLoads resolved).map (LiteralLoad.facts resolved.toScope)) =
      some [⟨.constant, ("A", none), some 1, some 1, some true⟩,
        ⟨.constant, ("A", none), some 2, some 2, some true⟩] := by
    decide
  cases himage : link (Assembler.encodeLine scalarEncoders) noHost (twoLoads "A") with
  | error e => simp [himage, Except.isOk, Except.toBool] at hok
  | ok image =>
      refine ⟨image, rfl, ?_⟩
      rintro ⟨p, resolved, -, hresolved, hown⟩
      rw [hresolved] at hfacts
      obtain ⟨a, rest, hloads, ha, hrest⟩ := List.map_eq_cons_iff.mp (Option.some.inj hfacts)
      obtain ⟨b, rest, rfl, hb, -⟩ := List.map_eq_cons_iff.mp hrest
      have hkey : a.key = b.key := by
        have hka : a.key = ("A", none) := congrArg LoadFacts.key ha
        have hkb : b.key = ("A", none) := congrArg LoadFacts.key hb
        rw [hka, hkb]
      have hvalue := hown.shared a (by simp [hloads]) b (by simp [hloads]) (by rw [hkey])
      rw [eq_ok_of_toOption (congrArg LoadFacts.value ha),
        eq_ok_of_toOption (congrArg LoadFacts.value hb)] at hvalue
      exact absurd (Except.ok.inj hvalue) (by decide)

end Playground
