/-
The cpus loads and steps can reach are settled, so that a step back takes back every
recorded step from any of them.
-/
import Playground.Machine.Loader
import Playground.Machine.StepBack

namespace Playground

namespace Memory

/-- What loading does to memory: it logs nothing and keeps the page budget. -/
structure Prepares (m m' : Memory) : Prop where
  recording : m'.recording = m.recording
  budgeted : m.Budgeted → m'.Budgeted

theorem Prepares.refl (m : Memory) : Prepares m m := ⟨rfl, id⟩

theorem Prepares.trans {m m' m'' : Memory} (first : Prepares m m') (second : Prepares m' m'') :
    Prepares m m'' :=
  ⟨second.recording.trans first.recording, fun h => second.budgeted (first.budgeted h)⟩

theorem prepares_run (m : Memory) (call : MemCall) : Prepares m (call.run m) :=
  ⟨(keeps_run m call).recording, (keeps_run m call).budgeted⟩

/-- The pages mapped without a write are the baseline ones, outside the budget. -/
theorem prepares_mapPage (m : Memory) {addr : Word} (h : pageBase addr ∈ baselinePages) :
    Prepares m (m.mapPage addr) := by
  unfold mapPage pageOrMap
  split
  · exact Prepares.refl m
  · refine ⟨rfl, fun hm => ?_⟩
    have hkeys : (m.pages.insert (pageBase addr) zeroPage).keys \ baselinePages ⊆
        m.pages.keys \ baselinePages := by
      intro key hkey
      rw [Finset.mem_sdiff, Finmap.mem_keys, Finmap.mem_insert] at hkey
      rcases hkey with ⟨rfl | hmem, hnew⟩
      · exact absurd h hnew
      · exact Finset.mem_sdiff.mpr ⟨Finmap.mem_keys.mpr hmem, hnew⟩
    exact (Finset.card_le_card hkeys).trans hm

theorem prepares_mapPages (addrs : List Word) (m : Memory)
    (h : ∀ addr ∈ addrs, pageBase addr ∈ baselinePages) :
    Prepares m (addrs.foldl mapPage m) := by
  induction addrs generalizing m with
  | nil => exact Prepares.refl m
  | cons addr addrs ih =>
      exact (prepares_mapPage m (h addr (by simp))).trans
        (ih (m.mapPage addr) fun other hother => h other (by simp [hother]))

end Memory

namespace Attempt

/-- A chain of attempts prepares memory when each of them does. -/
theorem prepares_andThen {m : Memory} {r : Attempt} {next : Memory → Attempt}
    (hr : Memory.Prepares m r.1) (hnext : ∀ m, Memory.Prepares m (next m).1) :
    Memory.Prepares m (r.andThen next).1 := by
  obtain ⟨mem, result⟩ := r
  cases result with
  | error e => exact hr
  | ok _ => exact hr.trans (hnext mem)

theorem prepares_each {α : Type} {f : α → Memory → Attempt} (xs : List α) (m : Memory)
    (hf : ∀ x m, Memory.Prepares m (f x m).1) : Memory.Prepares m (each f xs m).1 := by
  have hfold : ∀ (xs : List α) (r : Attempt), Memory.Prepares m r.1 →
      Memory.Prepares m (xs.foldl (fun r x => r.andThen (f x)) r).1 := by
    intro xs
    induction xs with
    | nil => exact fun r hr => hr
    | cons x xs ih => exact fun r hr => ih _ (prepares_andThen hr (hf x))
  exact hfold xs (m, .ok ()) (Memory.Prepares.refl m)

end Attempt

theorem prepares_writeStdioGlobals (m : Memory) :
    Memory.Prepares m (writeStdioGlobals m).1 := by
  unfold writeStdioGlobals
  simp only
  refine Attempt.prepares_andThen (Attempt.prepares_andThen (Attempt.prepares_andThen
    (Attempt.prepares_andThen (Attempt.prepares_andThen (Attempt.prepares_andThen ?_ ?_) ?_) ?_)
    ?_) ?_) ?_
  · exact (Memory.prepares_mapPage m (by decide)).trans (Attempt.prepares_each _ _
      fun fd m => Memory.prepares_run m (.writeU64 _ _))
  · exact fun m => Memory.prepares_run m (.writeU64 _ _)
  · exact fun m => Attempt.prepares_each _ _ fun i m => Memory.prepares_run m (.writeU16 _ _)
  · exact fun m => (Memory.prepares_mapPage m (by decide)).trans
      (Memory.prepares_run _ (.writeU64 _ _))
  · exact fun m => Memory.prepares_run m (.writeU64 _ _)
  · exact fun m => Attempt.prepares_each _ _ fun i m => Memory.prepares_run m (.writeU32 _ _)
  · exact fun m => Attempt.prepares_each _ _ fun i m => Memory.prepares_run m (.writeU32 _ _)

theorem prepares_setupArgvMemory (m : Memory) (all : List String) :
    Memory.Prepares m (setupArgvMemory m all).1 := by
  unfold setupArgvMemory
  simp only
  split
  · exact Memory.Prepares.refl m
  · refine Attempt.prepares_andThen ((Memory.prepares_mapPage m (by decide)).trans
      (Attempt.prepares_each _ _ fun entry m => ?_))
      fun m => Memory.prepares_run m (.writeU64 _ _)
    exact Attempt.prepares_andThen (Attempt.prepares_andThen
      (Memory.prepares_run m (.writeU64 _ _)) fun m => Memory.prepares_run m (.writeBytes _ _))
      fun m => Memory.prepares_run m (.writeBytes _ _)

theorem prepares_layOutMemory {m m' : Memory} (h : layOutMemory m = some m') :
    Memory.Prepares m m' := by
  have hpages : ∀ addr ∈ premappedPages, pageBase addr ∈ baselinePages := by
    have hlist : premappedPages = [0x7FFFF000, 0x7FFFE000, 0x7FFFD000, 0x7FFFC000, 0x400000,
        0x401000, 0x402000, 0x403000, 0x500000, 0x600000, 0x700000] := rfl
    rw [hlist]
    simp only [List.forall_mem_cons, List.not_mem_nil, false_implies, implies_true, and_true]
    decide
  have hmapped := Memory.prepares_mapPages premappedPages m hpages
  have hwritten := hmapped.trans (prepares_writeStdioGlobals _)
  unfold layOutMemory at h
  split at h
  · next mem heq =>
      rw [heq] at hwritten
      obtain rfl := Option.some.inj h
      exact hwritten
  · cases h

theorem prepares_loadItems (base : Word) (offset : Nat) (items : List Item) (m : Memory) :
    Memory.Prepares m (Cpu.loadItems base offset items m).1 := by
  induction items generalizing offset m with
  | nil => exact Memory.Prepares.refl m
  | cons item items ih =>
      refine Attempt.prepares_andThen ?_ (ih _)
      cases item with
      | bytes bytes => exact Memory.prepares_run m (.writeBytes _ _)
      | _ => exact Memory.Prepares.refl m

/-- The attempt went through, and the pages `bases` are mapped. -/
structure Attempt.Lands (bases : List Word) (r : Attempt) : Prop where
  ok : r.2 = .ok ()
  mapped : ∀ base ∈ bases, base ∈ r.1.pages

namespace Attempt.Lands

variable {bases : List Word}

theorem andThen (bases : List Word) {bases' : List Word} {r : Attempt}
    {next : Memory → Attempt} (h : r.Lands bases)
    (hnext : ∀ m, Attempt.Lands bases (m, .ok ()) → (next m).Lands bases') :
    (r.andThen next).Lands bases' := by
  obtain ⟨mem, result⟩ := r
  obtain ⟨rfl, hmapped⟩ := h
  exact hnext mem ⟨rfl, hmapped⟩

theorem each {α : Type} {f : α → Memory → Attempt} {xs : List α} {m : Memory}
    (h : Attempt.Lands bases (m, .ok ()))
    (hf : ∀ x ∈ xs, ∀ m, Attempt.Lands bases (m, .ok ()) → (f x m).Lands bases) :
    (Attempt.each f xs m).Lands bases := by
  have hfold : ∀ (xs : List α) (r : Attempt), r.Lands bases →
      (∀ x ∈ xs, ∀ m, Attempt.Lands bases (m, .ok ()) → (f x m).Lands bases) →
      (xs.foldl (fun r x => r.andThen (f x)) r).Lands bases := by
    intro xs
    induction xs with
    | nil => exact fun r hr _ => hr
    | cons x xs ih =>
        intro r hr hf
        exact ih _ (andThen bases hr (hf x (by simp))) fun y hy => hf y (by simp [hy])
  exact hfold xs _ h hf

/-- A write inside a mapped page goes through. -/
theorem writeLe {m : Memory} (h : Attempt.Lands bases (m, .ok ())) {addr : Word}
    {bytes : List Byte} (hspan : Memory.spansPage addr bytes.length = false)
    (hpage : pageBase addr ∈ bases) : Attempt.Lands bases (m.writeLe addr bytes) := by
  have hmapped : pageBase addr ∈ m.pages := h.mapped _ hpage
  obtain ⟨page, hlookup⟩ := Finmap.mem_iff.mp hmapped
  have hwrite : m.writeLe addr bytes = (m.storeInPage addr page bytes, .ok ()) := by
    simp [Memory.writeLe, hspan, Memory.writeInPage, hmapped, Memory.pageOrMap, hlookup]
  rw [hwrite]
  exact ⟨rfl, fun base hbase => Finmap.mem_insert.mpr (Or.inr (h.mapped base hbase))⟩

theorem mapPage {m : Memory} (h : ∀ base ∈ bases, base ∈ m.pages) (addr : Word) :
    Attempt.Lands (pageBase addr :: bases) (m.mapPage addr, .ok ()) := by
  refine ⟨rfl, fun base hbase => ?_⟩
  unfold Memory.mapPage Memory.pageOrMap
  rcases List.mem_cons.mp hbase with rfl | hbase
  · split
    · next page hlookup => exact Finmap.mem_iff.mpr ⟨page, hlookup⟩
    · exact Finmap.mem_insert.mpr (Or.inl rfl)
  · split
    · exact h base hbase
    · exact Finmap.mem_insert.mpr (Or.inr (h base hbase))

end Attempt.Lands

/-- Every entry of a table lies inside the page it starts in. -/
def tableFits (page table : Word) (size : Nat) : Bool :=
  (List.range tableEntries).all fun i =>
    !Memory.spansPage (table + BitVec.ofNat 64 (i * size)) size &&
      decide (pageBase (table + BitVec.ofNat 64 (i * size)) = page)

theorem tableFits_spec {page table : Word} {size i : Nat} (h : tableFits page table size = true)
    (hi : i ∈ List.range tableEntries) :
    Memory.spansPage (table + BitVec.ofNat 64 (i * size)) size = false ∧
    pageBase (table + BitVec.ofNat 64 (i * size)) = page := by
  have hentry := List.all_eq_true.mp h i hi
  simpa using hentry

/-- The libc globals are written whatever else is mapped: their pages are mapped
first. -/
theorem writeStdioGlobals_lands (m : Memory) :
    (writeStdioGlobals m).Lands [ctypeConvBase, stdioGlobalsBase] := by
  have hclasses : tableFits stdioGlobalsBase ctypeBTable 2 = true := by decide +kernel
  have hupper : tableFits ctypeConvBase ctypeToupperTable 4 = true := by decide +kernel
  have hlower : tableFits ctypeConvBase ctypeTolowerTable 4 = true := by decide +kernel
  have hstart : Attempt.Lands [stdioGlobalsBase] (m.mapPage stdioGlobalsBase, .ok ()) :=
    Attempt.Lands.mapPage (by simp) stdioGlobalsBase
  unfold writeStdioGlobals
  simp only
  let both := [ctypeConvBase, stdioGlobalsBase]
  refine Attempt.Lands.andThen both (Attempt.Lands.andThen both (Attempt.Lands.andThen both
    (Attempt.Lands.andThen [stdioGlobalsBase] (Attempt.Lands.andThen [stdioGlobalsBase]
      (Attempt.Lands.andThen [stdioGlobalsBase] (Attempt.Lands.each hstart ?_) ?_) ?_) ?_) ?_)
      ?_) ?_
  · intro fd hfd m hm
    have hlt : fd < 3 := List.mem_range.mp hfd
    refine hm.writeLe ?_ ?_
    · rw [length_leBytes]
      interval_cases fd <;> decide
    · interval_cases fd <;> decide
  · exact fun m hm => hm.writeLe (by rw [length_leBytes]; decide) (by decide)
  · refine fun m hm => hm.each fun i hi m hm => ?_
    obtain ⟨hspan, hpage⟩ := tableFits_spec hclasses hi
    exact hm.writeLe (by rw [length_leBytes]; exact hspan) (by rw [hpage]; simp)
  · exact fun m hm => (Attempt.Lands.mapPage hm.mapped ctypeConvBase).writeLe
      (by rw [length_leBytes]; decide) (by decide)
  · exact fun m hm => hm.writeLe (by rw [length_leBytes]; decide) (by decide)
  · refine fun m hm => hm.each fun i hi m hm => ?_
    obtain ⟨hspan, hpage⟩ := tableFits_spec hupper hi
    exact hm.writeLe (by rw [length_leBytes]; exact hspan) (by rw [hpage]; decide)
  · refine fun m hm => hm.each fun i hi m hm => ?_
    obtain ⟨hspan, hpage⟩ := tableFits_spec hlower hi
    exact hm.writeLe (by rw [length_leBytes]; exact hspan) (by rw [hpage]; decide)

/-- The constructor and `reset` never panic. -/
theorem exists_layOutMemory (m : Memory) : ∃ m', layOutMemory m = some m' := by
  have hlands := writeStdioGlobals_lands (premappedPages.foldl Memory.mapPage m)
  unfold layOutMemory
  split
  · next mem _ => exact ⟨mem, rfl⟩
  · next mem e heq => simp [heq] at hlands; cases hlands.ok

/-- Registers a load has written: nothing logged, no read noted. -/
structure RegisterFile.Quiet (r : RegisterFile) : Prop where
  recording : r.recording = false
  reads : r.clobberedReads = default

namespace RegisterFile.Quiet

variable {r : RegisterFile}

theorem writePc (h : r.Quiet) (value : Word) : (r.writePc value).Quiet := ⟨h.recording, h.reads⟩

theorem writeGpr (h : r.Quiet) (index : Nat) (sf : Bool) (value : Word) :
    (r.writeGpr index sf value).Quiet := by
  unfold RegisterFile.writeGpr RegisterFile.log
  split
  · simp only [h.recording, Bool.false_eq_true, ↓reduceIte]
    exact ⟨rfl, h.reads⟩
  · exact h

end RegisterFile.Quiet

namespace Cpu

theorem Settled.regsQuiet {c : Cpu} (h : c.Settled) : c.regs.Quiet :=
  ⟨(h.machine.idle rfl).1, h.reads⟩

/-- A settled cpu stays so when a load writes its memory and its registers, and keeps
or clears the ring. -/
theorem Settled.load {c c' : Cpu} (h : c.Settled) (hmem : Memory.Prepares c.mem c'.mem)
    (hregs : c'.regs.Quiet) (hheap : c'.machine.heap = c.machine.heap)
    (hcapacity : c'.snapshots.capacity = c.snapshots.capacity)
    (hring : c'.snapshots.frames = [] ∨ c'.snapshots.frames = c.snapshots.frames) :
    c'.Settled := by
  obtain ⟨-, hidle, hheapIdle⟩ := h.machine.idle rfl
  refine ⟨⟨hmem.budgeted h.machine.budgeted, ?_, fun _ => ⟨hregs.recording, ?_, ?_⟩, by simp⟩,
    hregs.reads, hcapacity.trans h.capacity, ?_⟩
  · rw [hheap]
    exact h.machine.wellFormed
  · exact hmem.recording.trans hidle
  · rw [hheap]
    exact hheapIdle
  · rcases hring with hring | hring
    · simp [hring]
    · rw [hring]
      exact h.ring

theorem budgeted_of_no_pages {m : Memory} (h : m.pages = ∅) : m.Budgeted := by
  unfold Memory.Budgeted
  rw [h]
  decide

theorem settled_new {c : Cpu} (h : Cpu.new = some c) : c.Settled := by
  unfold new at h
  simp only [Option.bind_eq_bind, Option.bind_eq_some_iff, Option.pure_def,
    Option.some.injEq] at h
  obtain ⟨mem, hmem, rfl⟩ := h
  have hprepared := prepares_layOutMemory hmem
  exact ⟨⟨hprepared.budgeted (budgeted_of_no_pages rfl), HeapState.wellFormed_new,
    fun _ => ⟨rfl, hprepared.recording, rfl⟩, by simp⟩, rfl, rfl, by simp⟩

theorem Settled.reset {c c' : Cpu} (h : c.Settled) (hreset : c.reset = some c') :
    c'.Settled := by
  unfold Cpu.reset at hreset
  simp only [Option.bind_eq_bind, Option.bind_eq_some_iff, Option.pure_def,
    Option.some.injEq] at hreset
  obtain ⟨mem, hmem, rfl⟩ := hreset
  have hprepared := prepares_layOutMemory hmem
  exact ⟨⟨hprepared.budgeted (budgeted_of_no_pages rfl), HeapState.wellFormed_new,
    fun _ => ⟨rfl, hprepared.recording.trans (h.machine.idle rfl).2.1, rfl⟩, by simp⟩, rfl,
    h.capacity, by simp⟩

theorem Settled.loadProgram {c c' : Cpu} (h : c.Settled) {code : List (BitVec 32)}
    (hload : c.loadProgram code = some c') : c'.Settled := by
  have hwrites := Attempt.prepares_each (f := fun (entry : BitVec 32 × Nat) m =>
      m.writeU32 (codeBase + BitVec.ofNat 64 (entry.2 * 4)) entry.1) code.zipIdx c.mem
    fun entry m => Memory.prepares_run m (.writeU32 _ _)
  unfold Cpu.loadProgram at hload
  split at hload
  · cases hload
  · next mem heq =>
      rw [heq] at hwrites
      obtain rfl := Option.some.inj hload
      exact h.load hwrites (h.regsQuiet.writePc _) rfl rfl (Or.inl rfl)

theorem Settled.enterImage {c : Cpu} (h : c.Settled) (p : Platform) (image : LinkedImage) :
    (c.enterImage p image).Settled := by
  unfold Cpu.enterImage
  simp only
  split
  · exact h.load ⟨rfl, id⟩ ((h.regsQuiet.writePc _).writeGpr 30 true _) rfl rfl (Or.inr rfl)
  · exact h.load ⟨rfl, id⟩ (h.regsQuiet.writePc _) rfl rfl (Or.inr rfl)

theorem setupArgv_regs {r : RegisterFile} (h : r.Quiet) (m : Memory) (args : List String) :
    (setupArgv r m args).1.Quiet := by
  unfold setupArgv
  simp only
  split
  · exact (h.writeGpr 0 true _).writeGpr 1 true _
  · exact h

theorem prepares_setupArgv (r : RegisterFile) (m : Memory) (args : List String) :
    Memory.Prepares m (setupArgv r m args).2.1 := by
  have hwritten := prepares_setupArgvMemory m (defaultArgv0 :: args)
  unfold setupArgv
  simp only
  split <;> next mem heq => rw [heq] at hwritten; exact hwritten

theorem Settled.loadLinkedImageWithArgs {c : Cpu} (h : c.Settled) (p : Platform)
    (image : LinkedImage) (args : List String) :
    (c.loadLinkedImageWithArgs p image args).1.Settled := by
  have hstart : c.startImage.Settled :=
    h.load (Memory.Prepares.refl _) h.regsQuiet rfl rfl (Or.inl rfl)
  have hwrites := Attempt.prepares_each
    (f := fun (write : Word × List Byte) m => m.writeBytes write.1 write.2) image.writes
    c.startImage.mem fun write m => Memory.prepares_run m (.writeBytes _ _)
  unfold Cpu.loadLinkedImageWithArgs
  simp only
  split
  · next mem e heq =>
      rw [heq] at hwrites
      exact hstart.load hwrites hstart.regsQuiet rfl rfl (Or.inr rfl)
  · next mem heq =>
      rw [heq] at hwrites
      have hwritten : (c.startImage.setMem mem).Settled :=
        hstart.load hwrites hstart.regsQuiet rfl rfl (Or.inr rfl)
      have henter := hwritten.enterImage p image
      generalize (c.startImage.setMem mem).enterImage p image = d at henter ⊢
      have hregs := setupArgv_regs henter.regsQuiet d.mem args
      have hmem := Attempt.prepares_andThen (prepares_setupArgv d.regs d.mem args)
        prepares_writeStdioGlobals
      split
      · next mem e heq =>
          rw [heq] at hmem
          exact henter.load hmem hregs rfl rfl (Or.inr rfl)
      · next mem heq =>
          rw [heq] at hmem
          exact henter.load hmem hregs rfl rfl (Or.inr rfl)

theorem Settled.loadSections {c : Cpu} (h : c.Settled) (program : Program) :
    (c.loadSections program).1.Settled := by
  have hwrites := Attempt.prepares_each
    (f := fun (s : Section) => loadItems s.kind.defaultBase 0 s.items) program.sections c.mem
    fun s m => prepares_loadItems s.kind.defaultBase 0 s.items m
  unfold Cpu.loadSections
  split
  · next mem e heq =>
      rw [heq] at hwrites
      exact h.load hwrites h.regsQuiet rfl rfl (Or.inr rfl)
  · next mem heq =>
      rw [heq] at hwrites
      exact h.load hwrites (h.regsQuiet.writePc _) rfl rfl (Or.inr rfl)

/-- The cpus a host gets to: a new machine, loads and resets, input, and steps. -/
inductive Reachable (p : Platform) : Cpu → Prop
  | new {c : Cpu} (h : Cpu.new = some c) : Reachable p c
  | reset {c c' : Cpu} (hc : Reachable p c) (h : c.reset = some c') : Reachable p c'
  | loadProgram {c c' : Cpu} (hc : Reachable p c) {code : List (BitVec 32)}
      (h : c.loadProgram code = some c') : Reachable p c'
  | loadLinkedImage {c : Cpu} (hc : Reachable p c) (image : LinkedImage)
      (args : List String) : Reachable p (c.loadLinkedImageWithArgs p image args).1
  | loadSections {c : Cpu} (hc : Reachable p c) (program : Program) :
      Reachable p (c.loadSections program).1
  | queueStdin {c : Cpu} (hc : Reachable p c) (bytes : List Byte) (interactive : Bool) :
      Reachable p (c.queueStdin bytes interactive)
  | closeStdin {c : Cpu} (hc : Reachable p c) : Reachable p c.closeStdin
  | step {c : Cpu} (hc : Reachable p c) : Reachable p (c.step p).1

theorem Reachable.settled {p : Platform} {c : Cpu} (h : Reachable p c) : c.Settled := by
  induction h with
  | new h => exact settled_new h
  | reset hc h ih => exact ih.reset h
  | loadProgram hc h ih => exact ih.loadProgram h
  | loadLinkedImage hc image args ih => exact ih.loadLinkedImageWithArgs p image args
  | loadSections hc program ih => exact ih.loadSections program
  | queueStdin hc bytes interactive ih => exact ⟨ih.machine, ih.reads, ih.capacity, ih.ring⟩
  | closeStdin hc ih => exact ⟨ih.machine, ih.reads, ih.capacity, ih.ring⟩
  | step hc ih => exact ih.step p

/-- From every reachable cpu: a recorded step and a step back restore the machine, and
so do `k` recorded steps and `k` steps back, up to the depth of the ring. -/
theorem stepBack_inverts_step (p : Platform) (c : Cpu) (h : Reachable p c) :
    (c.Records → ((c.step p).1.stepBack.1).state = c.state) ∧
    ∀ k ≤ snapshotCapacity, (∀ j < k, ((fun c => (c.step p).1)^[j] c).Records) →
      ((fun c => c.stepBack.1)^[k] ((fun c => (c.step p).1)^[k] c)).state = c.state := by
  have hsettled := h.settled
  refine ⟨fun hrec => ?_, fun k hk hrec => hsettled.stepBack_iterate p k hk hrec⟩
  refine hsettled.stepBack_iterate p 1 (by decide) fun j hj => ?_
  obtain rfl : j = 0 := by omega
  exact hrec

/-- The machine the constructor builds. -/
def fresh : Cpu where
  toCopied := idleState
  machine := ⟨idleRegs, (layOutMemory Memory.new).getD Memory.new, HeapState.new⟩
  frames := CallStack.empty
  lastCall := default
  callScratch := default
  stdout := []
  stderr := []
  snapshotsPaused := false
  pendingSleepNs := none
  refundStepsTotal := 0
  refundOutputTotal := 0
  maxTotalSteps := Playground.maxTotalSteps
  outputTotal := 0
  abortMessage := none
  textEnd := none
  trampolineBase := 0
  trampolineNames := []
  clobberNotes := []
  clobberNoted := 0
  snapshots := ⟨[], snapshotCapacity⟩

theorem new_eq_fresh : Cpu.new = some fresh := by
  obtain ⟨mem, hmem⟩ := exists_layOutMemory Memory.new
  simp [new, fresh, hmem]

def nopPlatform : Platform where
  Instr := Unit
  decode word := if word = 0xD503201F then .ok () else .error (.unknownInstruction word)
  execute _ _ := .done (.ok .advance)
  callKind _ := .other
  passiveRead _ := .used
  host := ⟨[]⟩
  syscall _ side _ _ := .done (side, .ok .continue)

/-- The instructions of a small machine that writes whatever a step can write. -/
inductive SmallInstr
  | mov (code : Nat) (value : Word)
  | str (rt rn : Nat)
  | malloc (code size : Nat)
  | bl (words : Nat)
  | ret
  | svc

namespace SmallInstr

/-- The operation is in the low byte, a register in the next one, a number above. -/
def decode (word : BitVec 32) : Except EmuError SmallInstr :=
  let code := word.toNat / 2 ^ 8 % 32
  let number := word.toNat / 2 ^ 16
  if word.toNat % 2 ^ 8 = 1 then .ok (.mov code (BitVec.ofNat 64 number))
  else if word.toNat % 2 ^ 8 = 2 then .ok (.str code number)
  else if word.toNat % 2 ^ 8 = 3 then .ok (.malloc code number)
  else if word.toNat % 2 ^ 8 = 4 then .ok (.bl number)
  else if word.toNat % 2 ^ 8 = 5 then .ok .ret
  else if word.toNat % 2 ^ 8 = 6 then .ok .svc
  else .error (.unknownInstruction word)

def execute (m : Machine) : SmallInstr → Routine (Except EmuError ExecResult)
  | .mov code value => .invoke (.reg (.writeGpr code true value)) fun _ => .done (.ok .advance)
  | .str rt rn =>
      .invoke (.mem (.writeU64 (m.regs.gprValue rn true) (m.regs.gprValue rt true)))
        fun _ => .done (.ok .advance)
  | .malloc code size =>
      let block := BitVec.ofNat 64 ((m.heap.alloc size).2.getD 0)
      .invoke (.heap (.alloc size)) fun _ =>
        .invoke (.reg (.writeGpr code true block)) fun _ => .done (.ok .advance)
  | .bl words =>
      .invoke (.reg (.writeGpr 30 true (m.regs.pc + 4))) fun _ =>
        .invoke (.reg (.writePc (m.regs.pc + BitVec.ofNat 64 (words * 4))))
          fun _ => .done (.ok .branched)
  | .ret => .invoke (.reg (.writePc (m.regs.gprValue 30 true))) fun _ => .done (.ok .branched)
  | .svc => .done (.ok .syscall)

def callKind : SmallInstr → CallKind
  | .bl _ => .call
  | .ret => .ret
  | _ => .other

end SmallInstr

/-- A platform for them.  Syscall 1 prints the letter A, any other sleeps. -/
def smallPlatform : Platform where
  Instr := SmallInstr
  decode := SmallInstr.decode
  execute instr m := instr.execute m
  callKind := SmallInstr.callKind
  passiveRead _ := .used
  host := ⟨[]⟩
  syscall number side _ _ :=
    if number = 1 then .done ({ side with stdout := side.stdout ++ [65] }, .ok .continue)
    else .done (side, .ok (.sleep number))

/-- `x0 = malloc(24)`, `mov x1, #7` and `str x1, [x0]`. -/
def storeProgram : List (BitVec 32) := [0x00180003, 0x00070101, 0x00000102]

/-- Three steps take a block, write a register and store to the block; three steps back
undo them all. -/
theorem stepBack_inverts_step_stores : ∃ c d, Reachable smallPlatform c ∧
    d = (fun c => (c.step smallPlatform).1)^[3] c ∧
    (c.regs.gprValue 1 true = 0 ∧ c.machine.heap.blockSize heapBase = none) ∧
    (d.regs.gprValue 1 true = 7 ∧ d.machine.heap.blockSize heapBase = some 32 ∧
      d.mem.readU64 0x900000 = .ok 7) ∧
    ((fun c => c.stepBack.1)^[3] d).state = c.state := by
  have hruns : ∃ c ∈ fresh.loadProgram storeProgram,
      (∀ j < 3,
        let d := (fun c => (c.step smallPlatform).1)^[j] c
        d.halted = false ∧ d.blocked = false ∧ d.stepsTotal < d.maxTotalSteps ∧
          stackFloor ≤ d.regs.sp ∧ d.recordsFrames = true) ∧
      let d := (fun c => (c.step smallPlatform).1)^[3] c
      (c.regs.gprValue 1 true = 0 ∧ c.machine.heap.blockSize heapBase = none) ∧
        d.regs.gprValue 1 true = 7 ∧ d.machine.heap.blockSize heapBase = some 32 ∧
        d.mem.readU64 0x900000 = .ok 7 := by
    decide +kernel
  obtain ⟨c, hc, hrecords, hbefore, hafter⟩ := hruns
  have hreach : Reachable smallPlatform c := (Reachable.new new_eq_fresh).loadProgram hc
  refine ⟨c, _, hreach, rfl, hbefore, hafter,
    (stepBack_inverts_step smallPlatform c hreach).2 3 (by decide) fun j hj => ?_⟩
  obtain ⟨hrunning, hunblocked, hbudget, hstack, hrecording⟩ := hrecords j hj
  exact ⟨hrunning, hunblocked, hbudget, hstack, hrecording⟩

end Cpu

end Playground
