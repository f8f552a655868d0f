/-
The loads that write a register before their last read: the SIMD&FP pair and the structure
loads.  A fault part way leaves some destinations loaded.  When that happens is worked out
exactly, over whatever the vector registers held.
-/
import Playground.Isa.VectorWrites

namespace Playground

namespace Exec

variable {α β : Type}

def PreciseAt (x : Exec α) (m : Machine) : Prop :=
  ∀ e, (x.run m).2 = .error e → (x.run m).1.regs.values = m.regs.values

end Exec

/-- The machine with other contents of the vector registers. -/
def Machine.withFpr (m : Machine) (fpr : Fin 32 → BitVec 128) : Machine :=
  { m with regs := { m.regs with fpr := fpr } }

/-- A fault of this code in this machine leaves every register as it was, whatever the
vector registers hold. -/
def PreciseFaults (x : Exec ExecResult) (m : Machine) : Prop :=
  ∀ fpr, x.PreciseAt (m.withFpr fpr)

/-- Whether `n` bytes can be read. -/
def Memory.readable (mem : Memory) (addr : Word) (n : Nat) : Bool := (mem.readLe addr n).isOk

namespace Execute

/-- The base address a register gives. -/
def baseOf (r : RegisterFile) (rn : Nat) : Word := if 31 ≤ rn then r.sp else r.gprValue rn true

def SpAligned (r : RegisterFile) (rn : Nat) : Prop := 31 ≤ rn → r.sp.toNat % 16 = 0

/-- The address is past the null page. -/
def Guest (addr : Word) : Prop := nullPageLimit ≤ addr.toNat

/-- A pair load whose first element is there and whose second is not. -/
structure TearsPair (m : Machine) (op : LdStPairOp) (size : MemSize) (rt : Nat) (rn : Nat)
    (address : Word) : Prop where
  load : op ≠ .stp
  width : size ≠ .b ∧ size ≠ .h
  dest : rt < 32
  aligned : SpAligned m.regs rn
  first : Guest address ∧ m.mem.readable address size.bytes = true
  second : Guest (address + BitVec.ofNat 64 size.bytes) ∧
    m.mem.readable (address + BitVec.ofNat 64 size.bytes) size.bytes = false

/-- A structure load that cannot read all its elements, and has written by then: the
64-bit arrangements zero their registers first, the others write as they read. -/
structure TearsStructure (m : Machine) (s : SimdStructure) (base : Word) : Prop where
  load : s.load = true
  aligned : SpAligned m.regs s.rn
  ends : Guest base ∧
    Guest (base + BitVec.ofNat 64 (simdStructBytes s.shape s.count s.esize s.q - 1))
  unreadable : ∃ element ∈ elements s base, m.mem.readable element.1 s.esize = false
  written : s.shape = .multiple ∧ s.q = false ∨ m.mem.readable base s.esize = true

/-- The instruction leaves a destination loaded when it faults in this machine. -/
def Tears {W : Type} (m : Machine) : Instruction (VectorInstr W) → Prop
  | .fpLdStPair op size rt _ rn imm7 mode _ =>
      TearsPair m op size rt rn (applyIndexMode (baseOf m.regs rn) imm7 mode).1
  | .vector (.ldStStructure s _) => TearsStructure m s (baseOf m.regs s.rn)
  | _ => False

end Execute

namespace Execute

section Guarded

variable {rn : Nat} {first last : Word → Word} {access : MemAccess} {rest : Word → Exec ExecResult}
  {m : Machine}

/-- The checks a load makes of its base before anything else. -/
def guarded (rn : Nat) (first last : Word → Word) (access : MemAccess)
    (rest : Word → Exec ExecResult) : Exec ExecResult := do
  checkSpAlignment rn
  let base ← Exec.readGprOrSp rn true
  checkGuestAddress (first base) access
  checkGuestAddress (last base) access
  rest base

/-- The checks pass. -/
def Passes (r : RegisterFile) (rn : Nat) (first last : Word → Word) : Prop :=
  SpAligned r rn ∧ Guest (first (baseOf r rn)) ∧ Guest (last (baseOf r rn))

theorem run_checkSpAlignment (rn : Nat) (m : Machine) :
    (SpAligned m.regs rn ∧ (checkSpAlignment rn).run m = (m, .ok ())) ∨
      (¬ SpAligned m.regs rn ∧ ∃ e, (checkSpAlignment rn).run m = (m, .error e)) := by
  unfold checkSpAlignment SpAligned
  have hsp : Exec.readSp.run m = (m, .ok m.regs.sp) := rfl
  by_cases hrn : 31 ≤ rn
  · rw [if_pos hrn, Exec.run_bind_ok hsp]
    by_cases halign : m.regs.sp.toNat % 16 = 0
    · refine .inl ⟨fun _ => halign, ?_⟩
      rw [if_neg (by simpa using halign)]
      rfl
    · refine .inr ⟨fun h => halign (h hrn), .spAlignmentFault m.regs.sp false, ?_⟩
      rw [if_pos halign]
      exact Exec.run_fail _ m
  · rw [if_neg hrn]
    exact .inl ⟨fun h => absurd h hrn, rfl⟩

theorem run_checkGuestAddress (addr : Word) (access : MemAccess) (m : Machine) :
    (Guest addr ∧ (checkGuestAddress addr access).run m = (m, .ok ())) ∨
      (¬ Guest addr ∧ ∃ e, (checkGuestAddress addr access).run m = (m, .error e)) := by
  unfold checkGuestAddress Guest
  split
  · exact .inr ⟨by omega, _, rfl⟩
  · exact .inl ⟨by omega, rfl⟩

/-- The code behind the checks runs when they pass, and else they fault. -/
theorem run_guarded (rn : Nat) (first last : Word → Word) (access : MemAccess)
    (rest : Word → Exec ExecResult) (m : Machine) :
    ∃ r, r.values = m.regs.values ∧
      ((Passes m.regs rn first last ∧ (guarded rn first last access rest).run m =
          (rest (baseOf m.regs rn)).run { m with regs := r }) ∨
        (¬ Passes m.regs rn first last ∧ ∃ e, (guarded rn first last access rest).run m =
          ({ m with regs := r }, .error e))) := by
  unfold guarded Passes
  rcases run_checkSpAlignment rn m with ⟨halign, hrun⟩ | ⟨halign, e, hrun⟩
  · rw [Exec.run_bind_ok hrun]
    obtain ⟨r, hbase, hvalues⟩ := (Exec.reads_readGprOrSp rn true m).bind
      (f := fun base => do
        checkGuestAddress (first base) access
        checkGuestAddress (last base) access
        rest base)
    refine ⟨r, hvalues, ?_⟩
    rw [hbase]
    simp only [if_true]
    rw [show (if 31 ≤ rn then m.regs.sp else m.regs.gprValue rn true) = baseOf m.regs rn from rfl]
    rcases run_checkGuestAddress (first (baseOf m.regs rn)) access { m with regs := r } with
      ⟨hfirst, hrun⟩ | ⟨hfirst, e, hrun⟩
    · rw [Exec.run_bind_ok hrun]
      rcases run_checkGuestAddress (last (baseOf m.regs rn)) access { m with regs := r } with
        ⟨hlast, hrun⟩ | ⟨hlast, e, hrun⟩
      · exact .inl ⟨⟨halign, hfirst, hlast⟩, by rw [Exec.run_bind_ok hrun]⟩
      · exact .inr ⟨fun h => hlast h.2.2, e, by rw [Exec.run_bind, hrun]⟩
    · exact .inr ⟨fun h => hfirst h.2.1, e, by rw [Exec.run_bind, hrun]⟩
  · exact ⟨m.regs, rfl, .inr ⟨fun h => halign h.1, e, by rw [Exec.run_bind, hrun]⟩⟩

end Guarded

section Torn

variable {x : Exec Unit} {fin : Exec ExecResult} {steps : List LoadStep} {m : Machine}

/-- Load steps are precise when they all read, or leave every register as it was. -/
theorem preciseAt_loads (hx : x.Loads steps) (hfin : fin.Total) :
    (x >>= fun _ => fin).PreciseAt m ↔ (loadAll m.mem steps).2 = .ok () ∨
      ((loadAll m.mem steps).1.foldl RegCall.run m.regs).values = m.regs.values := by
  unfold Exec.PreciseAt
  rw [Exec.run_bind, hx]
  rcases loadAll m.mem steps with ⟨ops, e | ⟨⟩⟩
  · simp
  · simp only [true_or, iff_true]
    intro e herr
    obtain ⟨a, ha⟩ := hfin { m with regs := ops.foldl RegCall.run m.regs }
    rw [ha] at herr
    cases herr

/-- Register files with equal contents have equal bits. -/
theorem fprBit_congr {r r' : RegisterFile} (h : r.values = r'.values) (i : Fin 32) (b : Nat) :
    r.fprBit i b = r'.fprBit i b := by
  have hfpr : r.fpr = r'.fpr := congrArg RegisterValues.fpr h
  unfold RegisterFile.fprBit
  rw [hfpr]

section Behind

variable {rn : Nat} {first last : Word → Word} {access : MemAccess} {x : Word → Exec Unit}
  {fin : Word → Exec ExecResult} {steps : Word → List LoadStep}

/-- Behind the checks, nothing the load steps do depends on the vector registers. -/
theorem preciseAt_guarded (hx : ∀ base, (x base).Loads (steps base))
    (hfin : ∀ base, (fin base).Total) (hpasses : Passes m.regs rn first last)
    (access : MemAccess) (fpr : Fin 32 → BitVec 128) :
    ∃ r, r.values = (m.withFpr fpr).regs.values ∧
      ((guarded rn first last access fun base => x base >>= fun _ => fin base).PreciseAt
          (m.withFpr fpr) ↔
        (loadAll m.mem (steps (baseOf m.regs rn))).2 = .ok () ∨
          ((loadAll m.mem (steps (baseOf m.regs rn))).1.foldl RegCall.run r).values =
            r.values) := by
  obtain ⟨r, hvalues, ⟨-, hrun⟩ | ⟨hnot, -⟩⟩ := run_guarded rn first last access
    (fun base => x base >>= fun _ => fin base) (m.withFpr fpr)
  · refine ⟨r, hvalues, ?_⟩
    have hloads := preciseAt_loads (hx (baseOf m.regs rn)) (hfin (baseOf m.regs rn))
      (m := { m.withFpr fpr with regs := r })
    refine Iff.trans ?_ hloads
    unfold Exec.PreciseAt
    rw [hrun, ← hvalues]
    rfl
  · exact absurd hpasses hnot

theorem preciseFaults_guarded (hx : ∀ base, (x base).Loads (steps base))
    (hfin : ∀ base, (fin base).Total)
    (h : Passes m.regs rn first last → (loadAll m.mem (steps (baseOf m.regs rn))).2 = .ok () ∨
      ∀ r, ((loadAll m.mem (steps (baseOf m.regs rn))).1.foldl RegCall.run r).values = r.values) :
    PreciseFaults (guarded rn first last access fun base => x base >>= fun _ => fin base) m := by
  intro fpr
  by_cases hpasses : Passes m.regs rn first last
  · obtain ⟨r, -, hiff⟩ := preciseAt_guarded hx hfin hpasses access fpr
    rw [hiff]
    exact (h hpasses).imp id fun h => h r
  · intro e _
    obtain ⟨r, hvalues, ⟨hp, -⟩ | ⟨-, e', hrun⟩⟩ := run_guarded rn first last access
      (fun base => x base >>= fun _ => fin base) (m.withFpr fpr)
    · exact absurd hp hpasses
    · rw [hrun]
      exact hvalues

/-- A fault after a write that sets a bit is not precise: of two contents that differ in the
bit, one is not what the write leaves. -/
theorem not_preciseFaults_guarded (hx : ∀ base, (x base).Loads (steps base))
    (hfin : ∀ base, (fin base).Total) (hpasses : Passes m.regs rn first last)
    (hfault : (loadAll m.mem (steps (baseOf m.regs rn))).2 ≠ .ok ()) {op : RegCall}
    {ops : List RegCall} (hops : (loadAll m.mem (steps (baseOf m.regs rn))).1 = op :: ops)
    {i : Fin 32} {b : Nat} (hb : b < 128) (hfix : op.Fixes i b) (hkeep : ∀ op ∈ ops, op.Keeps i b) :
    ¬ PreciseFaults (guarded rn first last access fun base => x base >>= fun _ => fin base) m := by
  intro hprecise
  have hsame : ∀ fpr : Fin 32 → BitVec 128, ∃ r,
      (ops.foldl RegCall.run (op.run r)).fprBit i b = (fpr i).getLsbD b := by
    intro fpr
    obtain ⟨r, hvalues, hiff⟩ := preciseAt_guarded hx hfin hpasses access fpr
    have hvalues' := (hiff.mp (hprecise fpr)).resolve_left hfault
    rw [hops] at hvalues'
    exact ⟨r, (fprBit_congr hvalues' i b).trans (fprBit_congr hvalues i b)⟩
  obtain ⟨r, hr⟩ := hsame fun _ => 0
  obtain ⟨r', hr'⟩ := hsame fun _ => BitVec.allOnes 128
  have heq := RegCall.keeps_foldl hkeep (hfix r r')
  rw [hr, hr', BitVec.getLsbD_allOnes, decide_eq_true hb] at heq
  simp at heq

end Behind

end Torn

section Pair

/-- What a load of one SIMD&FP register reads and writes. -/
def loadFprStep (ft : Nat) (size : MemSize) (addr : Word) : LoadStep := fun mem =>
  match size with
  | .q => (mem.readU128 addr).map (RegCall.writeFprQ ft)
  | .b => (mem.readU8 addr).map fun v => .writeFprScalar ft 1 (v.setWidth 64)
  | .h => (mem.readU16 addr).map fun v => .writeFprScalar ft 2 (v.setWidth 64)
  | .w => (mem.readU32 addr).map fun v => .writeFprScalar ft 4 (v.setWidth 64)
  | .x => (mem.readU64 addr).map (RegCall.writeFprScalar ft 8)

theorem loads_loadFpr (ft : Nat) (size : MemSize) (addr : Word) :
    (loadFpr ft size addr).Loads [loadFprStep ft size addr] := by
  cases size with
  | q => exact Exec.loads_attempt (fun mem => mem.readU128 addr) (RegCall.writeFprQ ft)
  | b => exact Exec.loads_attempt_map (fun mem => mem.readU8 addr) _ (RegCall.writeFprScalar ft 1)
  | h => exact Exec.loads_attempt_map (fun mem => mem.readU16 addr) _ (RegCall.writeFprScalar ft 2)
  | w => exact Exec.loads_attempt_map (fun mem => mem.readU32 addr) _ (RegCall.writeFprScalar ft 4)
  | x => exact Exec.loads_attempt (fun mem => mem.readU64 addr) (RegCall.writeFprScalar ft 8)

theorem isOk_map {ε α β : Type} (f : α → β) (x : Except ε α) : (x.map f).isOk = x.isOk := by
  cases x <;> rfl

theorem map_eq_ok {ε α β : Type} {f : α → β} {x : Except ε α} {b : β} (h : x.map f = .ok b) :
    ∃ a, b = f a := by
  cases x with
  | error e => cases h
  | ok a => exact ⟨a, (Except.ok.inj h).symm⟩

theorem isOk_readU8 (mem : Memory) (addr : Word) :
    (mem.readU8 addr).isOk = mem.readable addr 1 := by
  have hone : Memory.spansPage addr 1 = false := by
    simp [Memory.spansPage]
  unfold Memory.readable Memory.readLe Memory.readU8
  rw [hone]
  rcases mem.getPage addr with e | page <;> rfl

theorem isOk_loadFprStep (ft : Nat) (size : MemSize) (addr : Word) (mem : Memory) :
    (loadFprStep ft size addr mem).isOk = mem.readable addr size.bytes := by
  cases size with
  | b => exact (isOk_map _ _).trans (isOk_readU8 mem addr)
  | _ => exact (isOk_map _ _).trans (isOk_map _ _)

theorem run_of_loadFprStep {ft : Nat} {size : MemSize} {addr : Word} {mem : Memory} {op : RegCall}
    (h : loadFprStep ft size addr mem = .ok op) :
    ∃ value, ∀ r, op.run r = r.storeFpr ft true value := by
  cases size <;> (obtain ⟨v, rfl⟩ := map_eq_ok h; exact ⟨_, fun r => rfl⟩)

theorem storeFpr_of_le {index : Nat} (h : 32 ≤ index) (r : RegisterFile) (value : BitVec 128) :
    r.storeFpr index true value = r := dif_neg (by omega)

theorem loadAll_pair (mem : Memory) (g h : LoadStep) :
    loadAll mem [g, h] = match g mem, h mem with
      | .error e, _ => ([], .error e)
      | .ok op, .error e => ([op], .error e)
      | .ok op, .ok op' => ([op, op'], .ok ()) := by
  simp only [loadAll]
  rcases g mem with e | op
  · rfl
  · rcases h mem with e | op' <;> rfl

/-- A pair load is precise unless its second element alone cannot be read. -/
theorem preciseFaults_pairLoad {op : LdStPairOp} {size : MemSize} (hop : op ≠ .stp)
    (hsize : size ≠ .b ∧ size ≠ .h) (rt rt2 rn : Nat) (imm7 : Word) (mode : IndexMode)
    (m : Machine) :
    PreciseFaults (execFpLdstPair op size rt rt2 rn imm7 mode) m ↔
      ¬ TearsPair m op size rt rn (applyIndexMode (baseOf m.regs rn) imm7 mode).1 := by
  have hcode : execFpLdstPair op size rt rt2 rn imm7 mode =
      guarded rn (fun base => (applyIndexMode base imm7 mode).1)
        (fun base => (applyIndexMode base imm7 mode).1 + BitVec.ofNat 64 size.bytes)
        (pairAccess op) fun base =>
          (do
            loadFpr rt size (applyIndexMode base imm7 mode).1
            loadFpr rt2 size ((applyIndexMode base imm7 mode).1 + BitVec.ofNat 64 size.bytes)) >>=
          fun _ => do
            writeBack rn (applyIndexMode base imm7 mode).2
            return .advance := by
    cases op with
    | stp => exact absurd rfl hop
    | _ =>
        cases size with
        | b => exact absurd rfl hsize.1
        | h => exact absurd rfl hsize.2
        | _ => rfl
  have hx : ∀ base, (do
      loadFpr rt size (applyIndexMode base imm7 mode).1
      loadFpr rt2 size ((applyIndexMode base imm7 mode).1 + BitVec.ofNat 64 size.bytes)).Loads
      [loadFprStep rt size (applyIndexMode base imm7 mode).1,
        loadFprStep rt2 size ((applyIndexMode base imm7 mode).1 + BitVec.ofNat 64 size.bytes)] :=
    fun base => (loads_loadFpr rt size _).bind (loads_loadFpr rt2 size _)
  have hfin : ∀ base, (do
      writeBack rn (applyIndexMode base imm7 mode).2
      return ExecResult.advance : Exec ExecResult).Total := fun base => total_finish rn _
  rw [hcode]
  generalize haddress : (applyIndexMode (baseOf m.regs rn) imm7 mode).1 = address
  have hfirst := isOk_loadFprStep rt size address m.mem
  have hsecond := isOk_loadFprStep rt2 size (address + BitVec.ofNat 64 size.bytes) m.mem
  have hpair := loadAll_pair m.mem (loadFprStep rt size address)
    (loadFprStep rt2 size (address + BitVec.ofNat 64 size.bytes))
  constructor
  · intro hprecise htears
    rw [htears.first.2] at hfirst
    rw [htears.second.2] at hsecond
    rcases hg : loadFprStep rt size address m.mem with e | op
    · rw [hg] at hfirst
      cases hfirst
    · rcases hh : loadFprStep rt2 size (address + BitVec.ofNat 64 size.bytes) m.mem with e | op'
      · rw [hg, hh] at hpair
        obtain ⟨value, hrun⟩ := run_of_loadFprStep hg
        have hfix : op.Fixes ⟨rt, htears.dest⟩ 0 := RegCall.fixes_storeFpr (i := ⟨rt, htears.dest⟩)
          hrun 0
        have hkeep : ∀ op ∈ ([] : List RegCall), op.Keeps ⟨rt, htears.dest⟩ 0 := by simp
        rw [← haddress] at htears hpair
        refine not_preciseFaults_guarded hx hfin
          ⟨htears.aligned, htears.first.1, htears.second.1⟩ ?_ ?_ (by decide) hfix hkeep hprecise
        · rw [hpair]
          nofun
        · rw [hpair]
      · rw [hh] at hsecond
        cases hsecond
  · intro hnot
    apply preciseFaults_guarded hx hfin
    intro hpasses
    simp only [Passes, haddress] at hpasses
    rw [haddress, hpair]
    rcases hg : loadFprStep rt size address m.mem with e | op
    · exact .inr fun r => rfl
    · rcases hh : loadFprStep rt2 size (address + BitVec.ofNat 64 size.bytes) m.mem with e | op'
      · rw [hg] at hfirst
        rw [hh] at hsecond
        by_cases hrt : rt < 32
        · exact absurd ⟨hop, hsize, hrt, hpasses.1, ⟨hpasses.2.1, hfirst.symm⟩,
            hpasses.2.2, hsecond.symm⟩ hnot
        · obtain ⟨value, hrun⟩ := run_of_loadFprStep hg
          refine .inr fun r => ?_
          have hsame : op.run r = r := (hrun r).trans (storeFpr_of_le (by omega) r value)
          exact congrArg RegisterFile.values hsame
      · exact .inl rfl

end Pair

section Structure

variable {s : SimdStructure}

def elementCall (s : SimdStructure) (reg lane : Nat) (value : Word) : RegCall :=
  match s.shape with
  | .replicate => .writeFprQ reg (filled s value)
  | _ => .writeFprLane reg s.esize lane value

/-- What the read of one element gives. -/
def elementResult (mem : Memory) (addr : Word) (esize : Nat) : Except EmuError Word :=
  match esize with
  | 1 => (mem.readU8 addr).map (·.setWidth 64)
  | 2 => (mem.readU16 addr).map (·.setWidth 64)
  | 4 => (mem.readU32 addr).map (·.setWidth 64)
  | _ => mem.readU64 addr

def elementStep (s : SimdStructure) (element : Word × Nat × Nat) : LoadStep := fun mem =>
  (elementResult mem element.1 s.esize).map (elementCall s element.2.1 element.2.2)

/-- The zeroes a 64-bit arrangement writes first. -/
def zeroSteps (s : SimdStructure) : List LoadStep :=
  if s.shape = .multiple ∧ s.load = true ∧ s.q = false then
    (List.range s.count).map fun step _ => .ok (.writeFprQ (regAt s step) 0)
  else []

theorem moveElement_load (hload : s.load = true) (element : Word × Nat × Nat) :
    moveElement s element = (readElement element.1 s.esize >>= fun v =>
      Exec.call (.reg (elementCall s element.2.1 element.2.2 v))) := by
  obtain ⟨addr, reg, lane⟩ := element
  unfold moveElement elementCall
  cases hshape : s.shape <;> simp only [hload, if_true] <;> rfl

theorem run_readElement (addr : Word) (esize : Nat) (m : Machine) :
    (readElement addr esize).run m = (m, elementResult m.mem addr esize) := by
  have hmap : ∀ {α : Type} (g : Memory → Except EmuError α) (f : α → Word),
      (f <$> Exec.attempt fun m => g m.mem : Exec Word).run m = (m, (g m.mem).map f) := by
    intro α g f
    show ((Exec.attempt fun m => g m.mem) >>= fun v => pure (f v)).run m = _
    rw [Exec.run_bind, Exec.run_attempt]
    rcases g m.mem with e | v <;> rfl
  by_cases h₁ : esize = 1
  · subst h₁
    exact hmap (fun mem => mem.readU8 addr) _
  by_cases h₂ : esize = 2
  · subst h₂
    exact hmap (fun mem => mem.readU16 addr) _
  by_cases h₄ : esize = 4
  · subst h₄
    exact hmap (fun mem => mem.readU32 addr) _
  · simp only [readElement, elementResult]
    rfl

theorem loads_moveElement (hload : s.load = true) (element : Word × Nat × Nat) :
    (moveElement s element).Loads [elementStep s element] := by
  rw [moveElement_load hload]
  apply Exec.loads_step
  intro m
  rw [Exec.run_bind, run_readElement]
  unfold elementStep
  rcases elementResult m.mem element.1 s.esize with e | v <;> rfl

theorem loads_zeroFirst (s : SimdStructure) : (zeroFirst s).Loads (zeroSteps s) := by
  unfold zeroFirst zeroSteps
  split
  · apply Exec.loads_each
    intro step
    exact Exec.loads_step fun m => rfl
  · exact Exec.loads_nil

theorem isOk_elementStep (hesize : s.esize ∈ [1, 2, 4, 8]) (element : Word × Nat × Nat)
    (mem : Memory) : (elementStep s element mem).isOk = mem.readable element.1 s.esize := by
  refine (isOk_map _ _).trans ?_
  simp only [List.mem_cons, List.not_mem_nil, or_false] at hesize
  rcases hesize with h | h | h | h <;> rw [h]
  · exact (isOk_map _ _).trans (isOk_readU8 mem element.1)
  · exact (isOk_map _ _).trans (isOk_map _ _)
  · exact (isOk_map _ _).trans (isOk_map _ _)
  · exact isOk_map _ _

theorem of_elementStep {element : Word × Nat × Nat} {mem : Memory} {op : RegCall}
    (h : elementStep s element mem = .ok op) :
    ∃ value, op = elementCall s element.2.1 element.2.2 value := map_eq_ok h

theorem keeps_elementCall (s : SimdStructure) (reg lane : Nat) (value : Word) (i : Fin 32)
    (b : Nat) : (elementCall s reg lane value).Keeps i b := by
  unfold elementCall
  split
  · exact RegCall.keeps_storeFpr (fun r => rfl) i b
  · exact RegCall.keeps_writeFprLane reg s.esize lane value i b

/-- Everything a structure load writes keeps bits apart. -/
theorem keeps_steps {base : Word} {mem : Memory} {op : RegCall}
    (h : op ∈ (loadAll mem (zeroSteps s ++ (elements s base).map (elementStep s))).1) (i : Fin 32)
    (b : Nat) : op.Keeps i b := by
  obtain ⟨step, hstep, hop⟩ := mem_loadAll h
  rcases List.mem_append.mp hstep with hzero | helement
  · unfold zeroSteps at hzero
    split at hzero
    · obtain ⟨k, -, rfl⟩ := List.mem_map.mp hzero
      cases hop
      exact RegCall.keeps_storeFpr (fun r => rfl) i b
    · cases hzero
  · obtain ⟨element, -, rfl⟩ := List.mem_map.mp helement
    obtain ⟨value, rfl⟩ := of_elementStep hop
    exact keeps_elementCall s _ _ value i b

theorem lanes_mul_esize (wf : s.WellFormed) : lanes s * s.esize = if s.q then 16 else 8 := by
  have hesize := wf.esize
  simp only [List.mem_cons, List.not_mem_nil, or_false] at hesize
  unfold lanes
  rcases hesize with h | h | h | h <;> rw [h] <;> cases s.q <;> rfl

theorem length_multipleLanes (s : SimdStructure) :
    (multipleLanes s).length = s.count / s.structures * (lanes s * s.structures) := by
  unfold multipleLanes
  simp [List.length_flatMap]

/-- The elements fill the bytes moved. -/
theorem length_elementLanes (wf : s.WellFormed) :
    (elementLanes s).length * s.esize = simdStructBytes s.shape s.count s.esize s.q := by
  unfold elementLanes simdStructBytes
  cases s.shape with
  | multiple =>
      simp only
      have hregisters : s.count / s.structures * s.structures = s.count :=
        Nat.div_mul_cancel wf.structures.2
      calc (multipleLanes s).length * s.esize
          = s.count / s.structures * (lanes s * s.structures) * s.esize := by
            rw [length_multipleLanes]
        _ = s.count / s.structures * s.structures * (lanes s * s.esize) := by ring
        _ = s.count * if s.q then 16 else 8 := by rw [hregisters, lanes_mul_esize wf]
  | lane index => rw [List.length_map, List.length_range]
  | replicate => rw [List.length_map, List.length_range]

theorem simdStructBytes_bounds (wf : s.WellFormed) :
    0 < simdStructBytes s.shape s.count s.esize s.q ∧
      simdStructBytes s.shape s.count s.esize s.q ≤ 64 := by
  obtain ⟨hpos, hesize⟩ := wf.esize_bounds
  obtain ⟨hcount, hle⟩ := wf.count
  have hbytes : ∀ n, 0 < n → n ≤ 16 → 0 < s.count * n ∧ s.count * n ≤ 64 := fun n hn hn' =>
    ⟨Nat.mul_pos hcount hn, Nat.mul_le_mul hle hn'⟩
  unfold simdStructBytes
  cases s.shape with
  | multiple =>
      cases s.q with
      | true => exact hbytes 16 (by decide) (by decide)
      | false => exact hbytes 8 (by decide) (by decide)
  | lane index => exact hbytes s.esize hpos (by omega)
  | replicate => exact hbytes s.esize hpos (by omega)

theorem multipleLanes_cons (wf : s.WellFormed) :
    ∃ rest, multipleLanes s = (regAt s 0, 0) :: rest := by
  obtain ⟨hpos, hle⟩ := wf.esize_bounds
  have hturns : 0 < s.count / s.structures :=
    Nat.div_pos (Nat.le_of_dvd wf.count.1 wf.structures.2) wf.structures.1
  have hlanes : 0 < lanes s := by
    unfold lanes
    apply Nat.div_pos _ hpos
    split <;> omega
  obtain ⟨turns, hturns⟩ := Nat.exists_eq_succ_of_ne_zero hturns.ne'
  obtain ⟨lanes', hlanes⟩ := Nat.exists_eq_succ_of_ne_zero hlanes.ne'
  obtain ⟨slots, hslots⟩ := Nat.exists_eq_succ_of_ne_zero wf.structures.1.ne'
  unfold multipleLanes
  rw [hturns, hlanes, hslots]
  simp only [List.range_succ_eq_map, List.flatMap_cons, List.map_cons, List.cons_append,
    Nat.zero_mul, Nat.add_zero]
  exact ⟨_, rfl⟩

/-- The first element goes to the first register, into a lane it has. -/
theorem elementLanes_cons (wf : s.WellFormed) :
    ∃ lane rest, elementLanes s = (regAt s 0, lane) :: rest ∧ lane < 128 / (s.esize * 8) := by
  obtain ⟨hpos, hle⟩ := wf.esize_bounds
  have hfirst : 0 < 128 / (s.esize * 8) := Nat.div_pos (by omega) (by omega)
  obtain ⟨count, hcount⟩ := Nat.exists_eq_succ_of_ne_zero wf.count.1.ne'
  unfold elementLanes
  cases hshape : s.shape with
  | multiple =>
      obtain ⟨rest, hrest⟩ := multipleLanes_cons wf
      exact ⟨0, rest, hrest, hfirst⟩
  | lane index =>
      have hindex := wf.lane index hshape
      simp only [hcount, List.range_succ_eq_map, List.map_cons]
      refine ⟨index, _, rfl, ?_⟩
      have hdvd : s.esize * 8 ∣ 128 := by
        have hesize := wf.esize
        simp only [List.mem_cons, List.not_mem_nil, or_false] at hesize
        rcases hesize with h | h | h | h <;> rw [h] <;> decide
      rw [Nat.lt_div_iff_mul_lt_of_dvd (by omega) hdvd, ← Nat.mul_assoc]
      omega
  | replicate =>
      simp only [hcount, List.range_succ_eq_map, List.map_cons]
      exact ⟨0, _, rfl, hfirst⟩

theorem elements_cons (wf : s.WellFormed) (base : Word) :
    ∃ lane rest, elements s base = (base, regAt s 0, lane) :: rest ∧
      lane < 128 / (s.esize * 8) := by
  obtain ⟨lane, rest, hlanes, hlt⟩ := elementLanes_cons wf
  unfold elements
  rw [hlanes, List.zipIdx_cons, List.map_cons]
  have hbase : base + BitVec.ofNat 64 (0 * s.esize) = base := by
    rw [Nat.zero_mul]
    exact BitVec.add_zero base
  simp only [hbase]
  exact ⟨lane, _, rfl, hlt⟩

/-- Writing an element into a lane that exists sets a bit. -/
theorem fixes_elementCall (wf : s.WellFormed) {reg lane : Nat} (hreg : reg < 32)
    (hlane : lane < 128 / (s.esize * 8)) (value : Word) :
    ∃ b, b < 128 ∧ (elementCall s reg lane value).Fixes ⟨reg, hreg⟩ b := by
  obtain ⟨hpos, hle⟩ := wf.esize_bounds
  unfold elementCall
  split
  · exact ⟨0, by decide, RegCall.fixes_storeFpr (i := ⟨reg, hreg⟩) (fun r => rfl) 0⟩
  · refine ⟨lane * (s.esize * 8), ?_, RegCall.fixes_writeFprLane (i := ⟨reg, hreg⟩) value hpos
      hle hlane⟩
    exact RegCall.lane_lt_of_lt_div hlane

theorem total_postIndex (s : SimdStructure) (base : Word) (total : Nat) :
    (do postIndex s base total; return ExecResult.advance : Exec ExecResult).Total := by
  have hpost : (postIndex s base total).Total := by
    unfold postIndex
    split
    · exact Exec.total_pure _
    · simp
  exact hpost.bind fun _ => Exec.total_pure _

/-- The executor of a structure load or store, as its checks and what they guard. -/
theorem execSimdLdstStructure_eq (s : SimdStructure) :
    execSimdLdstStructure s = guarded s.rn id
      (fun base => base + BitVec.ofNat 64 (simdStructBytes s.shape s.count s.esize s.q - 1))
      (if s.load then .read else .write) fun base =>
        (do zeroFirst s; Exec.each (elements s base) (moveElement s)) >>= fun _ => do
          postIndex s base (simdStructBytes s.shape s.count s.esize s.q)
          return .advance := by
  simp only [Exec.bind_assoc]
  rfl

/-- Whether the load steps all read is a matter of the elements alone. -/
theorem loadAll_steps_ok_iff (wf : s.WellFormed) (base : Word) (mem : Memory) :
    (loadAll mem (zeroSteps s ++ (elements s base).map (elementStep s))).2 = .ok () ↔
      ∀ element ∈ elements s base, mem.readable element.1 s.esize = true := by
  rw [loadAll_ok_iff]
  constructor
  · intro h element helement
    rw [← isOk_elementStep wf.esize]
    apply h
    exact List.mem_append_right _ (List.mem_map_of_mem helement)
  · intro h step hstep
    rcases List.mem_append.mp hstep with hzero | helement
    · unfold zeroSteps at hzero
      split at hzero
      · obtain ⟨k, -, rfl⟩ := List.mem_map.mp hzero
        rfl
      · cases hzero
    · obtain ⟨element, hmem, rfl⟩ := List.mem_map.mp helement
      rw [isOk_elementStep wf.esize]
      exact h element hmem

/-- What a torn structure load writes first sets a bit. -/
theorem fixes_first (wf : s.WellFormed) (hload : s.load = true) {base : Word} {mem : Memory}
    (h : s.shape = .multiple ∧ s.q = false ∨ mem.readable base s.esize = true) :
    ∃ op ops i b,
      (loadAll mem (zeroSteps s ++ (elements s base).map (elementStep s))).1 = op :: ops ∧
      b < 128 ∧ RegCall.Fixes op i b := by
  have hreg : regAt s 0 < 32 := Nat.mod_lt _ (by decide)
  by_cases hzero : s.shape = .multiple ∧ s.load = true ∧ s.q = false
  · obtain ⟨count, hcount⟩ := Nat.exists_eq_succ_of_ne_zero wf.count.1.ne'
    unfold zeroSteps
    rw [if_pos hzero, hcount, List.range_succ_eq_map, List.map_cons, List.cons_append]
    exact ⟨_, _, ⟨regAt s 0, hreg⟩, 0, rfl, by decide,
      RegCall.fixes_storeFpr (i := ⟨regAt s 0, hreg⟩) (fun r => rfl) 0⟩
  · have hread : mem.readable base s.esize = true :=
      h.resolve_left fun hm => hzero ⟨hm.1, hload, hm.2⟩
    obtain ⟨lane, rest, helements, hlane⟩ := elements_cons wf base
    have hok := isOk_elementStep wf.esize (base, regAt s 0, lane) mem
    rw [hread] at hok
    rcases hstep : elementStep s (base, regAt s 0, lane) mem with e | op
    · rw [hstep] at hok
      cases hok
    · obtain ⟨value, rfl⟩ := of_elementStep hstep
      obtain ⟨b, hb, hfix⟩ := fixes_elementCall wf hreg hlane value
      unfold zeroSteps
      rw [if_neg hzero, List.nil_append, helements, List.map_cons, loadAll, hstep]
      exact ⟨_, _, ⟨regAt s 0, hreg⟩, b, rfl, hb, hfix⟩

/-- A structure load is precise unless it has written when an element cannot be read. -/
theorem preciseFaults_structureLoad (wf : s.WellFormed) (hload : s.load = true) (m : Machine) :
    PreciseFaults (execSimdLdstStructure s) m ↔ ¬ TearsStructure m s (baseOf m.regs s.rn) := by
  have hx : ∀ base, (do zeroFirst s; Exec.each (elements s base) (moveElement s)).Loads
      (zeroSteps s ++ (elements s base).map (elementStep s)) := fun base =>
    (loads_zeroFirst s).bind (Exec.loads_each (loads_moveElement hload) _)
  have hfin := fun base => total_postIndex s base (simdStructBytes s.shape s.count s.esize s.q)
  have hall := loadAll_steps_ok_iff wf (baseOf m.regs s.rn) m.mem
  rw [execSimdLdstStructure_eq]
  constructor
  · intro hprecise htears
    obtain ⟨op, ops, i, b, hops, hb, hfix⟩ := fixes_first wf hload htears.written
    refine not_preciseFaults_guarded hx hfin ⟨htears.aligned, htears.ends⟩ ?_ hops hb hfix ?_
      hprecise
    · intro hok
      obtain ⟨element, helement, hread⟩ := htears.unreadable
      rw [hall.mp hok element helement] at hread
      cases hread
    · intro op' hop'
      apply keeps_steps
      rw [hops]
      exact List.mem_cons_of_mem op hop'
  · intro hnot
    apply preciseFaults_guarded hx hfin
    intro hpasses
    by_cases hok : ∀ element ∈ elements s (baseOf m.regs s.rn),
        m.mem.readable element.1 s.esize = true
    · exact .inl (hall.mpr hok)
    · push Not at hok
      obtain ⟨element, helement, hread⟩ := hok
      have hunwritten : ¬ (s.shape = .multiple ∧ s.q = false ∨
          m.mem.readable (baseOf m.regs s.rn) s.esize = true) := by
        intro hwritten
        exact hnot ⟨hload, hpasses.1, hpasses.2, ⟨element, helement, by simpa using hread⟩,
          hwritten⟩
      rw [not_or] at hunwritten
      -- the first element faults, so nothing is written
      obtain ⟨lane, rest, helements, -⟩ := elements_cons wf (baseOf m.regs s.rn)
      have hfirst := isOk_elementStep wf.esize (baseOf m.regs s.rn, regAt s 0, lane) m.mem
      rw [Bool.eq_false_iff.mpr hunwritten.2] at hfirst
      have hzero : ¬ (s.shape = .multiple ∧ s.load = true ∧ s.q = false) := fun h =>
        hunwritten.1 ⟨h.1, h.2.2⟩
      refine .inr fun r => ?_
      unfold zeroSteps
      rw [if_neg hzero, List.nil_append, helements, List.map_cons, loadAll]
      rcases hstep : elementStep s (baseOf m.regs s.rn, regAt s 0, lane) m.mem with e | op
      · rfl
      · rw [hstep] at hfirst
        cases hfirst

theorem quiet_each {α : Type} {body : α → Exec Unit} (h : ∀ a, (body a).Quiet) (l : List α) :
    (Exec.each l body).Quiet := by
  induction l with
  | nil => exact Exec.quiet_pure _
  | cons a l ih => exact (h a).bind fun _ => ih

/-- A structure store reads registers alone. -/
theorem precise_structureStore (wf : s.WellFormed) (hload : s.load = false) :
    (execSimdLdstStructure s).Precise := by
  have hwrite : ∀ addr value, (writeElement addr s.esize value).Quiet := by
    intro addr value
    unfold writeElement
    split <;> exact fun _ => rfl
  have hmove : ∀ element, (moveElement s element).Quiet := by
    rintro ⟨addr, reg, lane⟩
    unfold moveElement
    simp only [hload, Bool.false_eq_true, if_false]
    split
    · rename_i hshape
      rw [wf.replicate hshape] at hload
      cases hload
    · exact (Exec.quiet_look _).bind fun v => hwrite addr v
  have hzero : (zeroFirst s).Quiet := by
    unfold zeroFirst
    rw [if_neg (by simp [hload])]
    exact Exec.quiet_pure _
  refine precise_based s.rn fun base => ?_
  apply (quiet_checkGuestAddress _ _).bind_precise
  intro _
  apply (quiet_checkGuestAddress _ _).bind_precise
  intro _
  apply hzero.bind_precise
  intro _
  apply (quiet_each hmove _).bind_precise
  intro _
  exact (total_postIndex s base _).precise

end Structure

theorem precise_pairStore {op : LdStPairOp} {size : MemSize}
    (h : ¬ (op ≠ .stp ∧ size ≠ .b ∧ size ≠ .h)) (rt rt2 rn : Nat) (imm7 : Word)
    (mode : IndexMode) : (execFpLdstPair op size rt rt2 rn imm7 mode).Precise := by
  refine precise_based rn fun base => ?_
  apply (quiet_checkGuestAddress _ _).bind_precise
  intro _
  apply (quiet_checkGuestAddress _ _).bind_precise
  intro _
  refine Exec.Quiet.bind_precise ?_ fun _ => (total_finish rn _).precise
  cases size with
  | b => exact Exec.quiet_fail _
  | h => exact Exec.quiet_fail _
  | _ =>
      cases op with
      | stp => exact (quiet_storeFpr rt _ _).bind fun _ => quiet_storeFpr rt2 _ _
      | _ => exact absurd ⟨nofun, nofun, nofun⟩ h

theorem total_runCalls (ops : List RegCall) : (VectorInstr.runCalls ops).Total := by
  induction ops with
  | nil => exact Exec.total_pure _
  | cons op ops ih => exact (Exec.total_call _).bind fun _ => ih

end Execute

open Execute in
/-- Faults are precise except where a load tears: the SIMD&FP pair loads whose second element
alone cannot be read, and the structure loads that have written before an element cannot. -/
theorem preciseFaults_iff {W : Type} (calls : W → RegisterFile → List RegCall)
    (instr : Instruction (VectorInstr W)) (m : Machine) :
    PreciseFaults (execute (VectorInstr.run calls) instr) m ↔ ¬ Tears m instr := by
  have hprecise : (execute (VectorInstr.run calls) instr).Precise → ¬ Tears m instr →
      (PreciseFaults (execute (VectorInstr.run calls) instr) m ↔ ¬ Tears m instr) :=
    fun h hnot => ⟨fun _ => hnot, fun _ fpr => h (m.withFpr fpr)⟩
  cases instr with
  | ldSt op rt rn offset size mode =>
      exact hprecise (precise_execLdst op rt rn offset size mode) nofun
  | ldStPair op sf rt rt2 rn imm7 mode =>
      exact hprecise (precise_execLdstPair op sf rt rt2 rn imm7 mode) nofun
  | ldrLiteral sf rt offset => exact hprecise (precise_execLdrLiteral sf rt offset) nofun
  | fpLdrLiteral rt offset size => exact hprecise (precise_execFpLdrLiteral rt offset size) nofun
  | ldrSignExtended rt rn offset size mode sf =>
      exact hprecise (precise_execLdrs rt rn offset size mode sf) nofun
  | fpLdSt load ft rn offset size mode unscaled =>
      exact hprecise (precise_execFpLdst load ft rn offset size mode) nofun
  | brk imm16 => exact hprecise (Exec.quiet_fail _).precise nofun
  | fpLdStPair op size rt rt2 rn imm7 mode noAllocate =>
      by_cases h : op ≠ .stp ∧ size ≠ .b ∧ size ≠ .h
      · exact preciseFaults_pairLoad h.1 h.2 rt rt2 rn imm7 mode m
      · exact hprecise (precise_pairStore h rt rt2 rn imm7 mode) fun ht => h ⟨ht.load, ht.width⟩
  | vector instr =>
      cases instr with
      | ldStStructure s wf =>
          cases hload : s.load with
          | true => exact preciseFaults_structureLoad wf hload m
          | false =>
              apply hprecise (precise_structureStore wf hload)
              intro ht
              rw [ht.load] at hload
              cases hload
      | registers instr =>
          refine hprecise (Exec.Total.precise ?_) nofun
          exact (Exec.total_look _).bind fun ops => total_runCalls ops
  | _ =>
      refine hprecise (total_execute _ ?_).precise nofun
      trivial

/-- x0 points at the last word of the one page that is mapped. -/
def tornMachine : Machine where
  regs := { RegisterFile.new with gpr := fun _ => 0x1FFC, fpr := fun _ => 1 }
  mem := Memory.new.mapPage 0x1000
  heap := .new

/-- A vector unit of structure loads and stores alone. -/
def structuresOnly : VectorInstr Empty → Exec ExecResult := VectorInstr.run nofun

/-- `ldp s0, s1, [x0]` loads v0, and then faults. -/
theorem not_precise_tornPair :
    ¬ ∀ (instr : Instruction (VectorInstr Empty)) (m : Machine) (e : EmuError),
      ((execute structuresOnly instr).run m).2 = .error e →
        ((execute structuresOnly instr).run m).1.regs.values = m.regs.values := by
  intro h
  have hfault : ((execute structuresOnly (.fpLdStPair .ldp .w 0 1 0 0 .signedOffset false)).run
      tornMachine).2 = .error (.memoryFault 0x2000 .read) := by
    decide
  have hloaded : ((execute structuresOnly (.fpLdStPair .ldp .w 0 1 0 0 .signedOffset false)).run
      tornMachine).1.regs.fpr 0 = 0 := by
    decide
  have hsame := congrFun (congrArg RegisterValues.fpr (h _ tornMachine _ hfault)) 0
  have hone : tornMachine.regs.values.fpr 0 = 1 := rfl
  rw [hone] at hsame
  exact absurd (hloaded.symm.trans hsame) (by decide)

end Playground
