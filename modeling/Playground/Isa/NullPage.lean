/-
Which loads and stores keep off the first page.  The checks look at the address an access
starts at, so one that runs past the last address comes back to the page unseen; the literal
load of a general register is not checked at all.
-/
import Playground.Isa.Accesses

namespace Playground

namespace Execute

section Checks

/-- A check that looks at no memory: it passes if `Q`, and fails if not. -/
structure Decides (x : Exec Unit) (Q : Prop) : Prop where
  blind : x.MemoryBlind
  passes : Q → ∀ m, x.run m = (m, .ok ())
  fails : ¬ Q → ∀ m a, (x.run m).2 ≠ .ok a

theorem decides_checkGuestAddress (addr : Word) (access : MemAccess) :
    Decides (checkGuestAddress addr access) (PastNullPage addr) := by
  unfold checkGuestAddress
  constructor
  · exact Exec.blind_ite (Exec.blind_fail _) (Exec.blind_pure _)
  · intro hpast m
    have hguest : ¬ addr.toNat < nullPageLimit := Nat.not_lt.mpr hpast
    rw [if_neg hguest]
    rfl
  · intro hnull m a
    have hbelow : addr.toNat < nullPageLimit := Nat.lt_of_not_le hnull
    rw [if_pos hbelow]
    exact nofun

theorem Decides.both {x y : Exec Unit} {P Q : Prop} (hx : Decides x P) (hy : Decides y Q) :
    Decides (do x; y) (P ∧ Q) := by
  constructor
  · exact hx.blind.bind fun _ => hy.blind
  · rintro ⟨hP, hQ⟩ m
    rw [Exec.run_bind_ok (hx.passes hP m)]
    exact hy.passes hQ m
  · intro hnot m a
    by_cases hP : P
    · rw [Exec.run_bind_ok (hx.passes hP m)]
      exact hy.fails (fun hQ => hnot ⟨hP, hQ⟩) m a
    · have hfail := hx.fails hP m
      rw [Exec.run_bind]
      rcases hrun : x.run m with ⟨m', e | b⟩
      · exact nofun
      · rw [hrun] at hfail
        exact absurd rfl (hfail b)

/-- The displacement an offset operand contributes, from the registers. -/
def offsetOf (r : RegisterFile) : LdStOffset → Word
  | .immediate imm => imm
  | .register rm extend shiftAmount =>
      let raw := r.gprValue rm true
      let extended : Word := match extend with
        | .lsl | .sxtx => raw
        | .uxtw => raw &&& 0xFFFFFFFF
        | .sxtw => signedWord raw
      extended <<< shiftAmount.getD 0

/-- The address accessed, and what is written back. -/
def addressOf (r : RegisterFile) (rn : Nat) (offset : LdStOffset) (mode : IndexMode) :
    Word × Option Word := applyIndexMode (baseOf r rn) (offsetOf r offset) mode

theorem reads_resolveLdstOffset (offset : LdStOffset) (m : Machine) :
    (resolveLdstOffset offset).Reads m (offsetOf m.regs offset) := by
  cases offset with
  | immediate imm => exact Exec.reads_pure imm m
  | register rm extend shiftAmount =>
      obtain ⟨r, hrun, hvalues⟩ := Exec.reads_readGpr rm true m
      exact ⟨r, Exec.run_bind_ok hrun, hvalues⟩

theorem blind_resolveLdstOffset (offset : LdStOffset) : (resolveLdstOffset offset).MemoryBlind := by
  cases offset with
  | immediate imm => exact Exec.blind_pure _
  | register rm extend shiftAmount =>
      exact (Exec.blind_readGpr rm true).bind fun _ => Exec.blind_pure _

theorem offsetOf_congr {r r' : RegisterFile} (h : r.values = r'.values) (offset : LdStOffset) :
    offsetOf r offset = offsetOf r' offset := by
  cases offset with
  | immediate imm => rfl
  | register rm extend shiftAmount =>
      simp only [offsetOf, RegisterFile.gprValue_congr h]

theorem blind_checkSpAlignment (rn : Nat) : (checkSpAlignment rn).MemoryBlind := by
  unfold checkSpAlignment
  apply Exec.blind_ite
  · apply (Exec.blind_look fun _ _ => rfl).bind
    intro sp
    exact Exec.blind_ite (Exec.blind_fail _) (Exec.blind_pure _)
  · exact Exec.blind_pure _

/-- What the loads and stores do before they access: the checks of the stack pointer and the
address, which they return with what is written back. -/
def pointed (rn : Nat) (offset : LdStOffset) (mode : IndexMode) (checks : Word → Exec Unit) :
    Exec (Word × Option Word) := do
  checkSpAlignment rn
  let base ← Exec.readGprOrSp rn true
  let offsetVal ← resolveLdstOffset offset
  checks (applyIndexMode base offsetVal mode).1
  return applyIndexMode base offsetVal mode

variable {rn : Nat} {offset : LdStOffset} {mode : IndexMode} {checks : Word → Exec Unit}
  {Q : Word → Prop} {m : Machine}

theorem blind_pointed (hchecks : ∀ addr, Decides (checks addr) (Q addr)) :
    (pointed rn offset mode checks).MemoryBlind := by
  apply (blind_checkSpAlignment rn).bind
  intro _
  apply (Exec.blind_readGprOrSp rn true).bind
  intro base
  apply (blind_resolveLdstOffset offset).bind
  intro offsetVal
  exact (hchecks _).blind.bind fun _ => Exec.blind_pure _

/-- The part of the code after the stack pointer is checked runs the checks of the address. -/
theorem run_pointed (offset : LdStOffset) (mode : IndexMode) (checks : Word → Exec Unit)
    (halign : SpAligned m.regs rn) : ∃ m',
    (pointed rn offset mode checks).run m =
      (do checks (addressOf m.regs rn offset mode).1
          return addressOf m.regs rn offset mode : Exec (Word × Option Word)).run m' := by
  rcases run_checkSpAlignment rn m with ⟨-, hrun⟩ | ⟨hnot, -⟩
  · obtain ⟨r, hbase, hvalues⟩ := Exec.reads_readGprOrSp rn true m
    obtain ⟨r', hoffset, -⟩ := reads_resolveLdstOffset offset { m with regs := r }
    refine ⟨{ m with regs := r' }, ?_⟩
    unfold pointed
    rw [Exec.run_bind_ok hrun, Exec.run_bind_ok hbase, Exec.run_bind_ok hoffset,
      offsetOf_congr hvalues]
    simp only [if_true]
    rfl
  · exact absurd halign hnot

theorem pointed_passes (hchecks : ∀ addr, Decides (checks addr) (Q addr))
    (h : SpAligned m.regs rn ∧ Q (addressOf m.regs rn offset mode).1) :
    ∃ m', (pointed rn offset mode checks).run m = (m', .ok (addressOf m.regs rn offset mode)) := by
  obtain ⟨m', hrun⟩ := run_pointed offset mode checks h.1
  exact ⟨m', by rw [hrun, Exec.run_bind_ok ((hchecks _).passes h.2 m')]; rfl⟩

theorem pointed_fails (hchecks : ∀ addr, Decides (checks addr) (Q addr))
    (h : ¬ (SpAligned m.regs rn ∧ Q (addressOf m.regs rn offset mode).1)) (a : Word × Option Word) :
    ((pointed rn offset mode checks).run m).2 ≠ .ok a := by
  by_cases halign : SpAligned m.regs rn
  · obtain ⟨m', hrun⟩ := run_pointed offset mode checks halign
    have hfail := (hchecks _).fails (fun hQ => h ⟨halign, hQ⟩) m'
    rw [hrun, Exec.run_bind]
    rcases hcheck : (checks (addressOf m.regs rn offset mode).1).run m' with ⟨m'', e | b⟩
    · exact nofun
    · rw [hcheck] at hfail
      exact absurd rfl (hfail b)
  · rcases run_checkSpAlignment rn m with ⟨hyes, -⟩ | ⟨-, e, hrun⟩
    · exact absurd hyes halign
    · unfold pointed
      rw [Exec.run_bind, hrun]
      exact nofun

/-- Code that checks without looking at memory and then accesses these spans keeps off the
first page, whatever the memory, unless the checks pass and a span reaches the page. -/
theorem spares_iff {α β : Type} {pre : Exec α} {f : α → Exec β} {P : Prop} {a : α}
    {spans : List (Word × Nat)} (hblind : pre.MemoryBlind)
    (hpass : P → ∃ m', pre.run m = (m', .ok a)) (hfail : ¬ P → ∀ b, (pre.run m).2 ≠ .ok b)
    (hf : Accesses (f a) spans) (hsmall : spanBytes spans ≤ 64) :
    (∀ mem, (pre >>= f).SparesNullPage { m with mem := mem }) ↔ ¬ (P ∧ ¬ SpansClear spans) := by
  constructor
  · rintro hspares ⟨hP, hreach⟩
    obtain ⟨m', hrun⟩ := hpass hP
    have hrun' := hblind m Memory.readsEverywhere
    rw [hrun] at hrun'
    have hreaches := hf.reaches hreach { m' with mem := Memory.readsEverywhere }
      (Memory.open_readsEverywhere.mono hsmall)
    exact ((hblind.spares _).bind_reaches hrun' hreaches).not_spares (hspares _)
  · intro hnot mem
    apply (hblind.spares _).bind
    intro m' b hrun
    by_cases hP : P
    · obtain ⟨m'', hrun''⟩ := hpass hP
      have hrun' := hblind m mem
      rw [hrun''] at hrun'
      have hb : b = a := by
        have hvalue := congrArg Prod.snd (hrun.symm.trans hrun')
        exact Except.ok.inj hvalue
      subst hb
      exact hf.spares (not_not.mp fun hreach => hnot ⟨hP, hreach⟩) m'
    · have hrun' := hblind m mem
      have hvalue := congrArg Prod.snd (hrun'.symm.trans hrun)
      exact absurd hvalue (hfail hP b)

end Checks

section Families

/-- What every load and store with a base does last. -/
def finish (rn : Nat) (writeback : Option Word) : Exec ExecResult := do
  writeBack rn writeback
  return .advance

theorem blind_finish (rn : Nat) (writeback : Option Word) : (finish rn writeback).MemoryBlind := by
  apply Exec.MemoryBlind.bind
  · cases writeback with
    | none => exact Exec.blind_pure _
    | some wb => exact Exec.blind_writeGprOrSp rn true wb
  · exact fun _ => Exec.blind_pure _

/-- An access with the write-back after it. -/
theorem accesses_finish {α : Type} {x : Exec α} {spans : List (Word × Nat)} (hx : Accesses x spans)
    (rn : Nat) (writeback : Option Word) :
    Accesses (x >>= fun _ => finish rn writeback) spans :=
  hx.after (fun _ => blind_finish rn writeback) fun _ => total_finish rn writeback

theorem accesses_writeGpr {x : Exec Word} {spans : List (Word × Nat)} (hx : Accesses x spans)
    (rt : Nat) (sf : Bool) (g : Word → Word) :
    Accesses (x >>= fun value => Exec.writeGpr rt sf (g value)) spans :=
  hx.after (fun _ => Exec.blind_call _) fun _ => Exec.total_call _

variable {m : Machine} {rn : Nat} {offset : LdStOffset} {mode : IndexMode}

/-- The span runs past the last address. -/
def Wraps (addr : Word) (n : Nat) : Prop := 2 ^ 64 < addr.toNat + n

/-- The second of two spans runs past the last address. -/
def SecondWraps (addr : Word) (n : Nat) : Prop :=
  addr.toNat + n < 2 ^ 64 ∧ 2 ^ 64 < addr.toNat + 2 * n

theorem bytes_bounds (size : MemSize) : 0 < size.bytes ∧ size.bytes ≤ 16 := by
  cases size <;> decide

/-- One access whose start is checked reaches the first page by running past the last
address. -/
theorem spares_single {access : MemAccess} {body : Word × Option Word → Exec ExecResult} {n : Nat}
    (hpos : 0 < n) (hn : n ≤ 16) (hbody : ∀ place, Accesses (body place) [(place.1, n)]) :
    (∀ mem, (pointed rn offset mode (fun a => checkGuestAddress a access) >>= body).SparesNullPage
        { m with mem := mem }) ↔
      ¬ (SpAligned m.regs rn ∧ Wraps (addressOf m.regs rn offset mode).1 n) := by
  have hchecks := fun a => decides_checkGuestAddress a access
  refine (spares_iff (blind_pointed hchecks) (pointed_passes hchecks) (pointed_fails hchecks)
    (hbody _) (by rw [spanBytes_singleton]; omega)).trans (not_congr ?_)
  rw [spansClear_singleton, clearOfNullPage_iff hpos]
  unfold Wraps PastNullPage
  constructor
  · rintro ⟨⟨halign, hpast⟩, hreach⟩
    exact ⟨halign, by omega⟩
  · rintro ⟨halign, hwrap⟩
    exact ⟨⟨halign, by omega⟩, by omega⟩

/-- Two accesses side by side whose starts are checked reach the first page by the second
running past the last address. -/
theorem spares_pair {access : MemAccess} {body : Word × Option Word → Exec ExecResult} {n : Nat}
    (hpos : 0 < n) (hn : n ≤ 16)
    (hbody : ∀ place, Accesses (body place)
      [(place.1, n), (place.1 + BitVec.ofNat 64 n, n)]) :
    (∀ mem, (pointed rn offset mode (fun a => do
          checkGuestAddress a access
          checkGuestAddress (a + BitVec.ofNat 64 n) access) >>= body).SparesNullPage
        { m with mem := mem }) ↔
      ¬ (SpAligned m.regs rn ∧ SecondWraps (addressOf m.regs rn offset mode).1 n) := by
  have hchecks := fun a => (decides_checkGuestAddress a access).both
    (decides_checkGuestAddress (a + BitVec.ofNat 64 n) access)
  refine (spares_iff (blind_pointed hchecks) (pointed_passes hchecks) (pointed_fails hchecks)
    (hbody _) (by simp [spanBytes]; omega)).trans (not_congr ?_)
  generalize (addressOf m.regs rn offset mode).1 = addr
  have hspans : SpansClear [(addr, n), (addr + BitVec.ofNat 64 n, n)] ↔
      ClearOfNullPage addr n ∧ ClearOfNullPage (addr + BitVec.ofNat 64 n) n := by
    unfold SpansClear
    simp only [List.forall_mem_cons, List.not_mem_nil, false_imp_iff, implies_true, and_true]
  rw [hspans, clearOfNullPage_iff hpos, clearOfNullPage_iff hpos]
  unfold SecondWraps PastNullPage
  rw [toNat_add_ofNat]
  have haddr := addr.isLt
  constructor
  · rintro ⟨⟨halign, hfirst, hsecond⟩, hreach⟩
    refine ⟨halign, ?_⟩
    by_cases hwrap : addr.toNat + n < 2 ^ 64
    · rw [Nat.mod_eq_of_lt hwrap] at hsecond hreach
      exact ⟨hwrap, by omega⟩
    · rw [Nat.mod_eq_sub_mod (by omega), Nat.mod_eq_of_lt (by omega)] at hsecond
      omega
  · rintro ⟨halign, hlow, hwrap⟩
    rw [Nat.mod_eq_of_lt hlow]
    exact ⟨⟨halign, by omega, by omega⟩, by omega⟩

theorem fails_fail {α : Type} (e : EmuError) (m : Machine) (a : α) :
    ((Exec.fail e : Exec α).run m).2 ≠ .ok a := nofun

theorem fails_after {α β : Type} {x : Exec α} {f : α → Exec β}
    (hf : ∀ a m b, ((f a).run m).2 ≠ .ok b) (m : Machine) (b : β) :
    ((x >>= f).run m).2 ≠ .ok b := by
  rw [Exec.run_bind]
  rcases x.run m with ⟨m', e | a⟩
  · exact nofun
  · exact hf a m' b

/-- Code that cannot succeed keeps off the first page. -/
theorem spares_of_fails {α β : Type} {pre : Exec α} {f : α → Exec β}
    (hf : ∀ a m b, ((f a).run m).2 ≠ .ok b) (m : Machine) : (pre >>= f).SparesNullPage m :=
  Exec.sparesNullPage_of_fails (fails_after hf m)

theorem fails_bind {α β : Type} {x : Exec α} {f : α → Exec β} (hx : ∀ m a, (x.run m).2 ≠ .ok a)
    (m : Machine) (b : β) : ((x >>= f).run m).2 ≠ .ok b := by
  have hfail := hx m
  rw [Exec.run_bind]
  rcases hrun : x.run m with ⟨m', e | a⟩
  · exact nofun
  · rw [hrun] at hfail
    exact absurd rfl (hfail a)

section Single

theorem execLdst_ldr (rt rn : Nat) (offset : LdStOffset) (size : MemSize) (mode : IndexMode) :
    execLdst .ldr rt rn offset size mode =
      pointed rn offset mode (fun a => checkGuestAddress a .read) >>= fun place =>
        (readSized size place.1 >>= fun value => Exec.writeGpr rt (size = .x) value) >>= fun _ =>
          finish rn place.2 := by
  unfold pointed execLdst
  simp only [Exec.bind_assoc]
  rfl

theorem execLdst_str (rt rn : Nat) (offset : LdStOffset) (size : MemSize) (mode : IndexMode) :
    execLdst .str rt rn offset size mode =
      pointed rn offset mode (fun a => checkGuestAddress a .write) >>= fun place =>
        (Exec.readGpr rt true >>= fun value => writeSized size place.1 value) >>= fun _ =>
          finish rn place.2 := by
  unfold pointed execLdst
  simp only [Exec.bind_assoc]
  rfl

theorem spares_execLdst (op : LdStOp) (rt : Nat) (size : MemSize) :
    (∀ mem, (execLdst op rt rn offset size mode).SparesNullPage { m with mem := mem }) ↔
      ¬ (size ≠ .q ∧ SpAligned m.regs rn ∧
        Wraps (addressOf m.regs rn offset mode).1 size.bytes) := by
  obtain ⟨hpos, hn⟩ := bytes_bounds size
  by_cases hq : size = .q
  · -- the executor has no such access
    subst hq
    have hfails : ∀ mem,
        (execLdst op rt rn offset .q mode).SparesNullPage { m with mem := mem } := by
      intro mem
      cases op with
      | ldr =>
          rw [execLdst_ldr]
          exact spares_of_fails (fun _ => fails_bind (fails_bind (fails_fail _))) _
      | str =>
          rw [execLdst_str]
          exact spares_of_fails (fun _ => fails_bind (fails_after fun _ => fails_fail _)) _
    exact ⟨fun _ h => h.1 rfl, fun _ => hfails⟩
  · simp only [ne_eq, hq, not_false_eq_true, true_and]
    cases op with
    | ldr =>
        rw [execLdst_ldr]
        refine spares_single hpos hn fun place => accesses_finish ?_ rn _
        exact accesses_writeGpr (accesses_readSized place.1 hq) rt _ id
    | str =>
        rw [execLdst_str]
        refine spares_single hpos hn fun place => accesses_finish ?_ rn _
        exact .before (Exec.blind_readGpr rt true) (Exec.total_readGpr rt true)
          fun value => accesses_writeSized place.1 hq value

theorem execFpLdst_eq (load : Bool) (ft rn : Nat) (offset : LdStOffset) (size : MemSize)
    (mode : IndexMode) :
    execFpLdst load ft rn offset size mode =
      pointed rn offset mode (fun a => checkGuestAddress a (if load then .read else .write)) >>=
        fun place => (if load then loadFpr ft size place.1 else storeFpr ft size place.1) >>=
          fun _ => finish rn place.2 := by
  unfold pointed execFpLdst
  simp only [Exec.bind_assoc]
  cases load <;> rfl

theorem spares_execFpLdst (load : Bool) (ft : Nat) (size : MemSize) :
    (∀ mem, (execFpLdst load ft rn offset size mode).SparesNullPage { m with mem := mem }) ↔
      ¬ (SpAligned m.regs rn ∧ Wraps (addressOf m.regs rn offset mode).1 size.bytes) := by
  obtain ⟨hpos, hn⟩ := bytes_bounds size
  rw [execFpLdst_eq]
  refine spares_single hpos hn fun place => accesses_finish ?_ rn _
  cases load with
  | true => exact accesses_loadFpr place.1 ft size
  | false => exact accesses_storeFpr place.1 ft size

def readSigned (size : MemSize) (address : Word) : Exec Word :=
  match size with
  | .b => (·.signExtend 64) <$> Exec.readU8 address
  | .h => (·.signExtend 64) <$> Exec.readU16 address
  | .w => (·.signExtend 64) <$> Exec.readU32 address
  | .x | .q => Exec.fail (.unknownInstruction 0)

theorem execLdrs_eq (rt rn : Nat) (offset : LdStOffset) (size : MemSize) (mode : IndexMode)
    (sf : Bool) :
    execLdrs rt rn offset size mode sf =
      pointed rn offset mode (fun a => checkGuestAddress a .read) >>= fun place =>
        (readSigned size place.1 >>= fun value =>
          Exec.writeGpr rt sf (if sf then value else value &&& 0xFFFFFFFF)) >>=
          fun _ => finish rn place.2 := by
  unfold pointed execLdrs
  simp only [Exec.bind_assoc]
  cases size <;> rfl

theorem spares_execLdrs (rt : Nat) (size : MemSize) (sf : Bool) :
    (∀ mem, (execLdrs rt rn offset size mode sf).SparesNullPage { m with mem := mem }) ↔
      ¬ ((size ≠ .x ∧ size ≠ .q) ∧ SpAligned m.regs rn ∧
        Wraps (addressOf m.regs rn offset mode).1 size.bytes) := by
  obtain ⟨hpos, hn⟩ := bytes_bounds size
  rw [execLdrs_eq]
  have hfails : (∀ m address a, ((readSigned size address).run m).2 ≠ .ok a) →
      ∀ m, (pointed rn offset mode (fun a => checkGuestAddress a .read) >>= fun place =>
        (readSigned size place.1 >>= fun value =>
          Exec.writeGpr rt sf (if sf then value else value &&& 0xFFFFFFFF)) >>=
          fun _ => finish rn place.2).SparesNullPage m := fun h =>
    spares_of_fails fun place => fails_bind (fails_bind fun m a => h m place.1 a)
  cases size with
  | x => exact ⟨fun _ h => h.1.1 rfl, fun _ _ => hfails (fun _ _ _ => nofun) _⟩
  | q => exact ⟨fun _ h => h.1.2 rfl, fun _ _ => hfails (fun _ _ _ => nofun) _⟩
  | b =>
      simp only [ne_eq, reduceCtorEq, not_false_eq_true, and_self, true_and]
      refine spares_single hpos hn fun place => accesses_finish ?_ rn _
      exact accesses_writeGpr ((accesses_readU8 place.1).map _) rt sf _
  | h =>
      simp only [ne_eq, reduceCtorEq, not_false_eq_true, and_self, true_and]
      refine spares_single hpos hn fun place => accesses_finish ?_ rn _
      exact accesses_writeGpr ((accesses_readU16 place.1).map _) rt sf _
  | w =>
      simp only [ne_eq, reduceCtorEq, not_false_eq_true, and_self, true_and]
      refine spares_single hpos hn fun place => accesses_finish ?_ rn _
      exact accesses_writeGpr ((accesses_readU32 place.1).map _) rt sf _

end Single

section Pair

def pairBytes (op : LdStPairOp) (sf : Bool) : Nat := if sf = true ∧ op ≠ .ldpsw then 8 else 4

/-- What a pair of general registers does between the checks and the write-back. -/
def movePair (op : LdStPairOp) (sf : Bool) (rt rt2 : Nat) (address : Word) : Exec Unit :=
  let second := address + BitVec.ofNat 64 (pairBytes op sf)
  let size : MemSize := if sf then .x else .w
  match op with
  | .ldp => do
      let v1 ← readSized size address
      let v2 ← readSized size second
      Exec.writeGpr rt sf v1
      Exec.writeGpr rt2 sf v2
  | .ldpsw => do
      let v1 ← Exec.readU32 address
      let v2 ← Exec.readU32 second
      Exec.writeGpr rt true (v1.signExtend 64)
      Exec.writeGpr rt2 true (v2.signExtend 64)
  | .stp => do
      let v1 ← Exec.readGpr rt sf
      let v2 ← Exec.readGpr rt2 sf
      writeSized size address v1
      writeSized size second v2

theorem execLdstPair_eq (op : LdStPairOp) (sf : Bool) (rt rt2 rn : Nat) (imm7 : Word)
    (mode : IndexMode) :
    execLdstPair op sf rt rt2 rn imm7 mode =
      pointed rn (.immediate imm7) mode (fun a => do
          checkGuestAddress a (pairAccess op)
          checkGuestAddress (a + BitVec.ofNat 64 (pairBytes op sf)) (pairAccess op)) >>=
        fun place => movePair op sf rt rt2 place.1 >>= fun _ => finish rn place.2 := by
  have hsize : (if sf = true ∧ op ≠ .ldpsw then 8 else 4 : Word) =
      BitVec.ofNat 64 (pairBytes op sf) := by
    unfold pairBytes
    split <;> rfl
  unfold pointed execLdstPair
  rw [hsize]
  cases op <;> simp only [Exec.bind_assoc, movePair] <;> rfl

theorem accesses_movePair (op : LdStPairOp) (sf : Bool) (rt rt2 : Nat) (address : Word) :
    Accesses (movePair op sf rt rt2 address) [(address, pairBytes op sf),
      (address + BitVec.ofNat 64 (pairBytes op sf), pairBytes op sf)] := by
  have hwrites : ∀ (wide : Bool) (v1 v2 : Word), Accesses (do
      Exec.writeGpr rt wide v1
      Exec.writeGpr rt2 wide v2) [] := fun wide v1 v2 =>
    .before (Exec.blind_call _) (Exec.total_call _)
      fun _ => .of_blind (Exec.blind_call _) (Exec.total_call _)
  have hsize : (if sf then .x else .w : MemSize) ≠ .q := by cases sf <;> decide
  have hbytes : op ≠ .ldpsw → (if sf then .x else .w : MemSize).bytes = pairBytes op sf := by
    intro hop
    cases sf <;> simp [pairBytes, hop, MemSize.bytes]
  cases op with
  | ldp =>
      have hread : ∀ addr, Accesses (readSized (if sf then .x else .w) addr)
          [(addr, pairBytes .ldp sf)] := by
        intro addr
        rw [← hbytes (by decide)]
        exact accesses_readSized addr hsize
      exact (hread address).bind fun v1 => (hread _).bind fun v2 => hwrites sf v1 v2
  | ldpsw =>
      have hread : ∀ addr, Accesses (Exec.readU32 addr) [(addr, pairBytes .ldpsw sf)] := by
        intro addr
        cases sf <;> exact accesses_readU32 addr
      exact (hread address).bind fun v1 => (hread _).bind fun v2 => hwrites true _ _
  | stp =>
      have hwrite : ∀ addr value, Accesses (writeSized (if sf then .x else .w) addr value)
          [(addr, pairBytes .stp sf)] := by
        intro addr value
        rw [← hbytes (by decide)]
        exact accesses_writeSized addr hsize value
      refine .before (Exec.blind_readGpr rt sf) (Exec.total_readGpr rt sf) fun v1 => ?_
      refine .before (Exec.blind_readGpr rt2 sf) (Exec.total_readGpr rt2 sf) fun v2 => ?_
      exact (hwrite address v1).bind fun _ => hwrite _ v2

theorem spares_execLdstPair (op : LdStPairOp) (sf : Bool) (rt rt2 : Nat) (imm7 : Word) :
    (∀ mem, (execLdstPair op sf rt rt2 rn imm7 mode).SparesNullPage { m with mem := mem }) ↔
      ¬ (SpAligned m.regs rn ∧
        SecondWraps (addressOf m.regs rn (.immediate imm7) mode).1 (pairBytes op sf)) := by
  have hbounds : 0 < pairBytes op sf ∧ pairBytes op sf ≤ 16 := by
    unfold pairBytes
    split <;> decide
  rw [execLdstPair_eq]
  exact spares_pair hbounds.1 hbounds.2 fun place =>
    accesses_finish (accesses_movePair op sf rt rt2 place.1) rn _

/-- What a pair of SIMD&FP registers does between the checks and the write-back. -/
def moveFprPair (op : LdStPairOp) (size : MemSize) (rt rt2 : Nat) (address : Word) : Exec Unit :=
  let second := address + BitVec.ofNat 64 size.bytes
  match op with
  | .ldp | .ldpsw => do
      loadFpr rt size address
      loadFpr rt2 size second
  | .stp => do
      storeFpr rt size address
      storeFpr rt2 size second

theorem execFpLdstPair_eq (op : LdStPairOp) (size : MemSize) (rt rt2 rn : Nat) (imm7 : Word)
    (mode : IndexMode) :
    execFpLdstPair op size rt rt2 rn imm7 mode =
      pointed rn (.immediate imm7) mode (fun a => do
          checkGuestAddress a (pairAccess op)
          checkGuestAddress (a + BitVec.ofNat 64 size.bytes) (pairAccess op)) >>=
        fun place => pairSized size (moveFprPair op size rt rt2 place.1) >>=
          fun _ => finish rn place.2 := by
  unfold pointed execFpLdstPair
  simp only [Exec.bind_assoc]
  cases op <;> rfl

theorem accesses_moveFprPair (op : LdStPairOp) (size : MemSize) (rt rt2 : Nat) (address : Word) :
    Accesses (moveFprPair op size rt rt2 address)
      [(address, size.bytes), (address + BitVec.ofNat 64 size.bytes, size.bytes)] := by
  cases op with
  | stp => exact (accesses_storeFpr address rt size).bind fun _ => accesses_storeFpr _ rt2 size
  | _ => exact (accesses_loadFpr address rt size).bind fun _ => accesses_loadFpr _ rt2 size

theorem pairSized_eq {size : MemSize} (h : size ≠ .b ∧ size ≠ .h) (x : Exec Unit) :
    pairSized size x = x := by
  cases size with
  | b => exact absurd rfl h.1
  | h => exact absurd rfl h.2
  | _ => rfl

theorem pairSized_fails {size : MemSize} (h : ¬ (size ≠ .b ∧ size ≠ .h)) (x : Exec Unit)
    (m : Machine) (a : Unit) : ((pairSized size x).run m).2 ≠ .ok a := by
  cases size with
  | b => exact fails_fail _ m a
  | h => exact fails_fail _ m a
  | _ => exact absurd ⟨nofun, nofun⟩ h

theorem spares_execFpLdstPair (op : LdStPairOp) (size : MemSize) (rt rt2 : Nat) (imm7 : Word) :
    (∀ mem, (execFpLdstPair op size rt rt2 rn imm7 mode).SparesNullPage { m with mem := mem }) ↔
      ¬ ((size ≠ .b ∧ size ≠ .h) ∧ SpAligned m.regs rn ∧
        SecondWraps (addressOf m.regs rn (.immediate imm7) mode).1 size.bytes) := by
  obtain ⟨hpos, hn⟩ := bytes_bounds size
  rw [execFpLdstPair_eq]
  by_cases hsize : size ≠ .b ∧ size ≠ .h
  · simp only [pairSized_eq hsize]
    rw [and_iff_right hsize]
    exact spares_pair hpos hn fun place =>
      accesses_finish (accesses_moveFprPair op size rt rt2 place.1) rn _
  · exact ⟨fun _ h => hsize h.1,
      fun _ _ => spares_of_fails (fun _ => fails_bind (pairSized_fails hsize _)) _⟩

end Pair

section Literal

theorem spares_execLdrLiteral (sf : Bool) (rt : Nat) (offset : Word) :
    (∀ mem, (execLdrLiteral sf rt offset).SparesNullPage { m with mem := mem }) ↔
      ¬ (¬ PastNullPage (m.regs.pc + offset) ∨
        Wraps (m.regs.pc + offset) (if sf then 8 else 4)) := by
  have hsize : (if sf then .x else .w : MemSize) ≠ .q := by cases sf <;> decide
  have hbytes : (if sf then .x else .w : MemSize).bytes = if sf then 8 else 4 := by
    cases sf <;> rfl
  have hbody : Accesses (readSized (if sf then .x else .w) (m.regs.pc + offset) >>= fun value =>
      Exec.writeGpr rt sf value >>= fun _ => pure ExecResult.advance)
      [(m.regs.pc + offset, if sf then 8 else 4)] := by
    rw [← hbytes]
    apply (accesses_readSized _ hsize).after
    · exact fun value => (Exec.blind_call _).bind fun _ => Exec.blind_pure _
    · exact fun value => (Exec.total_call _).bind fun _ => Exec.total_pure _
  refine (spares_iff (P := True) (Exec.blind_look fun _ _ => rfl) (fun _ => ⟨m, rfl⟩)
    (fun h => absurd trivial h) hbody ?_).trans (not_congr ?_)
  · rw [spanBytes_singleton]
    cases sf <;> decide
  · rw [true_and, spansClear_singleton, clearOfNullPage_iff (by cases sf <;> decide)]
    unfold Wraps
    rw [not_and_or, Nat.not_le]

theorem spares_execFpLdrLiteral (rt : Nat) (offset : Word) (size : MemSize) :
    (∀ mem, (execFpLdrLiteral rt offset size).SparesNullPage { m with mem := mem }) ↔
      ¬ ((size ≠ .b ∧ size ≠ .h) ∧ Wraps (m.regs.pc + offset) size.bytes) := by
  obtain ⟨hpos, hn⟩ := bytes_bounds size
  have hcode : execFpLdrLiteral rt offset size =
      (Exec.readPc >>= fun pc => checkGuestAddress (pc + offset) .read >>= fun _ => pure pc) >>=
        fun pc => pairSized size (loadFpr rt size (pc + offset)) >>=
          fun _ => pure ExecResult.advance := by
    unfold execFpLdrLiteral
    simp only [Exec.bind_assoc]
    rfl
  have hcheck := decides_checkGuestAddress (m.regs.pc + offset) .read
  rw [hcode]
  by_cases hsize : size ≠ .b ∧ size ≠ .h
  · simp only [pairSized_eq hsize]
    rw [and_iff_right hsize]
    refine (spares_iff (P := PastNullPage (m.regs.pc + offset)) (a := m.regs.pc) ?_ ?_ ?_
      ((accesses_loadFpr _ rt size).after (fun _ => Exec.blind_pure _) fun _ => Exec.total_pure _)
      (by rw [spanBytes_singleton]; omega)).trans (not_congr ?_)
    · apply (Exec.blind_look fun _ _ => rfl).bind
      intro pc
      exact (decides_checkGuestAddress _ _).blind.bind fun _ => Exec.blind_pure _
    · intro hpast
      refine ⟨m, ?_⟩
      rw [Exec.run_bind_ok (show Exec.readPc.run m = (m, .ok m.regs.pc) from rfl),
        Exec.run_bind_ok (hcheck.passes hpast m)]
      rfl
    · intro hnull pc
      rw [Exec.run_bind_ok (show Exec.readPc.run m = (m, .ok m.regs.pc) from rfl)]
      exact fails_bind (hcheck.fails hnull) m pc
    · rw [spansClear_singleton, clearOfNullPage_iff hpos]
      unfold Wraps PastNullPage
      omega
  · exact ⟨fun _ h => hsize h.1,
      fun _ _ => spares_of_fails (fun _ => fails_bind (pairSized_fails hsize _)) _⟩

end Literal

section Structure

variable {s : SimdStructure}

theorem accesses_each {α : Type} {body : α → Exec Unit} {span : α → Word × Nat}
    (h : ∀ a, Accesses (body a) [span a]) (l : List α) :
    Accesses (Exec.each l body) (l.map span) := by
  induction l with
  | nil => exact .of_blind (Exec.blind_pure _) (Exec.total_pure _)
  | cons a l ih => exact (h a).bind fun _ => ih

theorem blind_each {α : Type} {body : α → Exec Unit} (h : ∀ a, (body a).MemoryBlind)
    (l : List α) : (Exec.each l body).MemoryBlind := by
  induction l with
  | nil => exact Exec.blind_pure _
  | cons a l ih => exact (h a).bind fun _ => ih

theorem total_each {α : Type} {body : α → Exec Unit} (h : ∀ a, (body a).Total) (l : List α) :
    (Exec.each l body).Total := by
  induction l with
  | nil => exact Exec.total_pure _
  | cons a l ih => exact (h a).bind fun _ => ih

theorem accesses_moveElement (wf : s.WellFormed) (element : Word × Nat × Nat) :
    Accesses (moveElement s element) [(element.1, s.esize)] := by
  have hload : Accesses (readElement element.1 s.esize) [(element.1, s.esize)] :=
    accesses_readElement element.1 wf.esize
  have hlanes : Accesses (if s.load then do
      let value ← readElement element.1 s.esize
      Exec.writeFprLane element.2.1 s.esize element.2.2 value
    else do
      let value ← Exec.readFprLane element.2.1 s.esize element.2.2
      writeElement element.1 s.esize value) [(element.1, s.esize)] := by
    split
    · exact hload.after (fun _ => Exec.blind_call _) fun _ => Exec.total_call _
    · exact .before (Exec.blind_look fun _ _ => rfl) (Exec.total_look _)
        fun value => accesses_writeElement element.1 wf.esize value
  obtain ⟨addr, reg, lane⟩ := element
  unfold moveElement
  cases s.shape with
  | replicate => exact hload.after (fun _ => Exec.blind_call _) fun _ => Exec.total_call _
  | _ => exact hlanes

/-- Every element lies between the first and the last byte, which are both checked. -/
theorem spansClear_elements (wf : s.WellFormed) {base : Word} (hfirst : PastNullPage base)
    (hlast : PastNullPage
      (base + BitVec.ofNat 64 (simdStructBytes s.shape s.count s.esize s.q - 1))) :
    SpansClear ((elements s base).map fun element => (element.1, s.esize)) := by
  obtain ⟨hpos, hle⟩ := simdStructBytes_bounds wf
  obtain ⟨hesize, -⟩ := wf.esize_bounds
  have hlength := length_elementLanes wf
  have hbase := base.isLt
  generalize simdStructBytes s.shape s.count s.esize s.q = total at *
  unfold PastNullPage at hlast
  rw [toNat_add_ofNat] at hlast
  have hfits : base.toNat + total ≤ 2 ^ 64 := by
    by_contra hwrap
    rw [Nat.mod_eq_sub_mod (by omega), Nat.mod_eq_of_lt (by omega)] at hlast
    omega
  intro span hspan
  obtain ⟨element, helement, rfl⟩ := List.mem_map.mp hspan
  obtain ⟨⟨lane, k⟩, hlane, rfl⟩ := List.mem_map.mp helement
  have hk : k < (elementLanes s).length := by
    have hindex := (List.mem_zipIdx hlane).2.1
    omega
  have hend : k * s.esize + s.esize ≤ total := by
    rw [← hlength, ← Nat.succ_mul]
    exact Nat.mul_le_mul_right s.esize hk
  have haddr : (base + BitVec.ofNat 64 (k * s.esize)).toNat = base.toNat + k * s.esize := by
    rw [toNat_add_ofNat, Nat.mod_eq_of_lt (by omega)]
  rw [clearOfNullPage_iff hesize]
  unfold PastNullPage at hfirst ⊢
  simp only [haddr]
  omega

theorem blind_postIndex (s : SimdStructure) (base : Word) (total : Nat) :
    (postIndex s base total).MemoryBlind := by
  unfold postIndex
  cases s.post with
  | none => exact Exec.blind_pure _
  | some rm =>
      apply Exec.blind_ite
      · exact (Exec.blind_pure _).bind fun _ => Exec.blind_writeGprOrSp s.rn true _
      · exact (Exec.blind_readGpr rm true).bind fun _ => Exec.blind_writeGprOrSp s.rn true _

theorem execSimdLdstStructure_pointed (s : SimdStructure) :
    execSimdLdstStructure s = pointed s.rn (.immediate 0) .postIndex (fun base => do
        checkGuestAddress base (if s.load then .read else .write)
        checkGuestAddress
          (base + BitVec.ofNat 64 (simdStructBytes s.shape s.count s.esize s.q - 1))
          (if s.load then .read else .write)) >>= fun place =>
      (zeroFirst s >>= fun _ => Exec.each (elements s place.1) (moveElement s)) >>= fun _ => do
        postIndex s place.1 (simdStructBytes s.shape s.count s.esize s.q)
        return .advance := by
  unfold pointed execSimdLdstStructure
  simp only [Exec.bind_assoc]
  rfl

/-- The structure loads and stores check both ends, so they keep off the first page. -/
theorem spares_execSimdLdstStructure (wf : s.WellFormed) (m : Machine) (mem : Memory) :
    (execSimdLdstStructure s).SparesNullPage { m with mem := mem } := by
  have hchecks := fun base =>
    (decides_checkGuestAddress base (if s.load then .read else .write)).both
      (decides_checkGuestAddress
        (base + BitVec.ofNat 64 (simdStructBytes s.shape s.count s.esize s.q - 1))
        (if s.load then .read else .write))
  have hzero : ∀ step, (Exec.writeFprQ (regAt s step) 0).MemoryBlind ∧
      (Exec.writeFprQ (regAt s step) 0).Total := fun step =>
    ⟨Exec.blind_call _, Exec.total_call _⟩
  have hbody : ∀ base, Accesses ((zeroFirst s >>= fun _ =>
      Exec.each (elements s base) (moveElement s)) >>= fun _ => do
        postIndex s base (simdStructBytes s.shape s.count s.esize s.q)
        return ExecResult.advance)
      ((elements s base).map fun element => (element.1, s.esize)) := by
    intro base
    apply Accesses.after
    · apply Accesses.before
      · exact Exec.blind_ite (blind_each (fun step => (hzero step).1) _) (Exec.blind_pure _)
      · exact Exec.total_ite (total_each (fun step => (hzero step).2) _) (Exec.total_pure _)
      · exact fun _ => accesses_each (accesses_moveElement wf) _
    · exact fun _ => (blind_postIndex s base _).bind fun _ => Exec.blind_pure _
    · exact fun _ => total_postIndex s base _
  have hsmall : ∀ base : Word,
      spanBytes ((elements s base).map fun element => (element.1, s.esize)) ≤ 64 := by
    intro base
    have htotal := (simdStructBytes_bounds wf).2
    rw [← length_elementLanes wf] at htotal
    rw [spanBytes_map_const]
    simpa [elements] using htotal
  rw [execSimdLdstStructure_pointed]
  refine (spares_iff (m := m) (blind_pointed hchecks) (pointed_passes hchecks)
    (pointed_fails hchecks) (hbody _) (hsmall _)).mpr ?_ mem
  rintro ⟨⟨-, hfirst, hlast⟩, hreach⟩
  exact hreach (spansClear_elements wf hfirst hlast)

end Structure

end Families

def LoadOrStore {W : Type} : Instruction (VectorInstr W) → Prop
  | .ldSt .. | .ldStPair .. | .fpLdStPair .. | .ldrLiteral .. | .fpLdrLiteral ..
  | .ldrSignExtended .. | .fpLdSt .. | .vector (.ldStStructure ..) => True
  | _ => False

/-- The access runs past the last address with nothing checked there, or is a literal load of
a general register, which is not checked at all. -/
def SlipsPastChecks {W : Type} (r : RegisterFile) : Instruction (VectorInstr W) → Prop
  | .ldSt _ _ rn offset size mode =>
      size ≠ .q ∧ SpAligned r rn ∧ Wraps (addressOf r rn offset mode).1 size.bytes
  | .ldrSignExtended _ rn offset size mode _ =>
      (size ≠ .x ∧ size ≠ .q) ∧ SpAligned r rn ∧ Wraps (addressOf r rn offset mode).1 size.bytes
  | .fpLdSt _ _ rn offset size mode _ =>
      SpAligned r rn ∧ Wraps (addressOf r rn offset mode).1 size.bytes
  | .ldStPair op sf _ _ rn imm7 mode =>
      SpAligned r rn ∧ SecondWraps (addressOf r rn (.immediate imm7) mode).1 (pairBytes op sf)
  | .fpLdStPair _ size _ _ rn imm7 mode _ =>
      (size ≠ .b ∧ size ≠ .h) ∧ SpAligned r rn ∧
        SecondWraps (addressOf r rn (.immediate imm7) mode).1 size.bytes
  | .ldrLiteral sf _ offset =>
      ¬ PastNullPage (r.pc + offset) ∨ Wraps (r.pc + offset) (if sf then 8 else 4)
  | .fpLdrLiteral _ offset size =>
      (size ≠ .b ∧ size ≠ .h) ∧ Wraps (r.pc + offset) size.bytes
  | _ => False

end Execute

open Execute in
/-- A load or store keeps off the first page, whatever the memory, unless its access slips
past the checks. -/
theorem sparesNullPage_iff {W : Type} (calls : W → RegisterFile → List RegCall)
    (instr : Instruction (VectorInstr W)) (hinstr : LoadOrStore instr) (m : Machine) :
    (∀ mem, (execute (VectorInstr.run calls) instr).SparesNullPage { m with mem := mem }) ↔
      ¬ SlipsPastChecks m.regs instr := by
  cases instr with
  | ldSt op rt rn offset size mode => exact spares_execLdst op rt size
  | ldStPair op sf rt rt2 rn imm7 mode => exact spares_execLdstPair op sf rt rt2 imm7
  | fpLdStPair op size rt rt2 rn imm7 mode _ => exact spares_execFpLdstPair op size rt rt2 imm7
  | ldrLiteral sf rt offset => exact spares_execLdrLiteral sf rt offset
  | fpLdrLiteral rt offset size => exact spares_execFpLdrLiteral rt offset size
  | ldrSignExtended rt rn offset size mode sf => exact spares_execLdrs rt size sf
  | fpLdSt load ft rn offset size mode _ => exact spares_execFpLdst load ft size
  | vector instr =>
      cases instr with
      | ldStStructure s wf =>
          exact ⟨fun _ h => h, fun _ mem => spares_execSimdLdstStructure wf m mem⟩
      | registers instr => exact hinstr.elim
  | _ => exact hinstr.elim

/-- x1 points four bytes below the end of memory, and nothing is mapped. -/
def wrapMachine : Machine where
  regs := { RegisterFile.new with gpr := fun _ => 0xFFFFFFFFFFFFFFFC }
  mem := Memory.new
  heap := .new

/-- `str x0, [x1]` succeeds and maps the first page. -/
theorem not_spares_wrapStore :
    ¬ ∀ (instr : Instruction (VectorInstr Empty)) (m : Machine), Execute.LoadOrStore instr →
      (execute structuresOnly instr).SparesNullPage m := by
  intro h
  have hok : ((execute structuresOnly (.ldSt .str 0 1 (.immediate 0) .x .signedOffset)).run
      wrapMachine).2 = .ok .advance := by
    decide
  have hmapped : (0 : Word) ∈ ((execute structuresOnly
      (.ldSt .str 0 1 (.immediate 0) .x .signedOffset)).run
      wrapMachine.withoutNullPage).1.mem.pages := by
    decide
  have hspares := h (.ldSt .str 0 1 (.immediate 0) .x .signedOffset) wrapMachine trivial _ _
    (Prod.ext rfl hok)
  rw [hspares] at hmapped
  exact Memory.not_mem_withoutNullPage _ hmapped

/-- `ldr x0, [x1]` from the second page keeps off the first. -/
theorem sparesNullPage_iff_ldr :
    ¬ Execute.SlipsPastChecks { RegisterFile.new with gpr := fun _ => 0x1000 }
        (.ldSt .ldr 0 1 (.immediate 0) .x .signedOffset : Instruction (VectorInstr Empty)) ∧
      ∀ mem,
        (execute structuresOnly (.ldSt .ldr 0 1 (.immediate 0) .x .signedOffset)).SparesNullPage
          ⟨{ RegisterFile.new with gpr := fun _ => 0x1000 }, mem, .new⟩ := by
  have hsafe : ¬ Execute.SlipsPastChecks { RegisterFile.new with gpr := fun _ => 0x1000 }
      (.ldSt .ldr 0 1 (.immediate 0) .x .signedOffset : Instruction (VectorInstr Empty)) :=
    fun h => absurd h.2.2 (by unfold Execute.Wraps; decide)
  refine ⟨hsafe, ?_⟩
  exact (sparesNullPage_iff (W := Empty) (fun w => w.elim)
    (.ldSt .ldr 0 1 (.immediate 0) .x .signedOffset) trivial
    ⟨{ RegisterFile.new with gpr := fun _ => 0x1000 }, Memory.new, .new⟩).mpr hsafe

end Playground
