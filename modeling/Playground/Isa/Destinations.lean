/-
Which general registers, and whether the stack pointer, an instruction can change: every one
it does not write keeps its value, however its execution ends.  The same walk over the
executor shows that it looks at no undo log.
-/
import Playground.Isa.Platform
import Playground.Isa.SimdStructure
import Playground.Machine.Twins

namespace Playground

/-- A general register or the stack pointer. -/
inductive Slot
  | gpr (r : Fin 31)
  | sp
deriving DecidableEq, Repr

namespace Slot

def read (regs : RegisterFile) : Slot → Word
  | .gpr r => regs.gpr r
  | .sp => regs.sp

/-- The slot a register number names where 31 is the zero register. -/
def Named (index : Nat) : Slot → Prop
  | .gpr r => index = r.val
  | .sp => False

/-- The slot a register number names where 31 is the stack pointer. -/
def NamedOrSp (index : Nat) : Slot → Prop
  | .gpr r => index = r.val
  | .sp => 31 ≤ index

theorem not_named_of_not_namedOrSp {index : Nat} {slot : Slot} (h : ¬ slot.NamedOrSp index) :
    ¬ slot.Named index := by
  cases slot with
  | gpr r => exact h
  | sp => exact id

end Slot

def RegCall.Writes : RegCall → Slot → Prop
  | .writeGpr index _ _, slot => slot.Named index
  | .writeSp _, slot => slot = .sp
  | _, _ => False

namespace RegisterFile

variable (r : RegisterFile) (i : Fin 31)

theorem gpr_writeGpr {index : Nat} (hindex : index ≠ i.val) (sf : Bool) (value : Word) :
    (r.writeGpr index sf value).gpr i = r.gpr i := by
  by_cases h : index < 31
  · have hne : i ≠ ⟨index, h⟩ := fun heq => hindex (congrArg Fin.val heq).symm
    cases hrec : r.recording with
    | false => simp [writeGpr, h, log, hrec, Function.update_of_ne hne]
    | true => simp [writeGpr, h, log, hrec, Function.update_of_ne hne]
  · simp [writeGpr, h]

theorem sp_writeGpr (index : Nat) (sf : Bool) (value : Word) :
    (r.writeGpr index sf value).sp = r.sp := by
  by_cases h : index < 31
  · cases hrec : r.recording with
    | false => simp [writeGpr, h, log, hrec]
    | true => simp [writeGpr, h, log, hrec]
  · simp [writeGpr, h]

theorem read_markRead (slot : Slot) (x d : BitVec 32) :
    slot.read (r.markRead x d) = slot.read r := by
  cases slot with
  | gpr i => rfl
  | sp => rfl

theorem read_markFlagsRead (slot : Slot) : slot.read r.markFlagsRead = slot.read r := by
  rw [markFlagsRead]
  by_cases h : r.nzcv.pack = clobberNzcv
  · rw [if_pos h, read_markRead]
  · rw [if_neg h]

theorem read_log (slot : Slot) (edit : RegEdit) : slot.read (r.log edit) = slot.read r := by
  rw [log]
  cases slot with
  | gpr i => cases r.recording <;> rfl
  | sp => cases r.recording <;> rfl

theorem read_storeFpr (slot : Slot) (index : Nat) (low : Bool) (value : BitVec 128) :
    slot.read (r.storeFpr index low value) = slot.read r := by
  by_cases h : index < 32
  · have hlog := read_log (if low then r.unclobberFpr index else r) slot
      (.fpr index ((if low then r.unclobberFpr index else r).fpr (Fin.ofNat 32 index)))
    rw [storeFpr, dif_pos h]
    cases slot with
    | gpr i =>
        refine Eq.trans hlog ?_
        cases low <;> rfl
    | sp =>
        refine Eq.trans hlog ?_
        cases low <;> rfl
  · rw [storeFpr, dif_neg h]

end RegisterFile

open RegisterFile in
/-- A call keeps the slots it does not write. -/
theorem RegCall.read_run {op : RegCall} {slot : Slot} (h : ¬ op.Writes slot)
    (r : RegisterFile) : slot.read (op.run r) = slot.read r := by
  cases op with
  | readGpr index sf =>
      rw [RegCall.run, RegisterFile.readGpr]
      by_cases hindex : index < 31
      · rw [if_pos hindex, read_markRead]
      · rw [if_neg hindex]
  | writeGpr index sf value =>
      cases slot with
      | gpr i => exact gpr_writeGpr r i h sf value
      | sp => exact sp_writeGpr r index sf value
  | writeSp value =>
      cases slot with
      | gpr i => rfl
      | sp => exact absurd rfl h
  | writePc value => cases slot <;> rfl
  | assignNzcv flags => cases slot <;> rfl
  | setNzcv flags => cases slot <;> rfl
  | conditionHolds cond =>
      rw [RegCall.run, RegisterFile.conditionHolds]
      by_cases hcond : cond = .al
      · rw [if_pos hcond]
      · rw [if_neg hcond, read_markFlagsRead]
  | carryFlag => exact read_markFlagsRead r slot
  | readFprBits index =>
      rw [RegCall.run, RegisterFile.readFprBits]
      by_cases hindex : index < 32
      · rw [dif_pos hindex, read_markRead]
      · rw [dif_neg hindex]
  | writeFprBits index value => exact read_storeFpr r slot index true _
  | writeFprQ index value => exact read_storeFpr r slot index true _
  | writeFprScalar index bytes value => exact read_storeFpr r slot index true _
  | writeFprLane index esizeBytes lane value =>
      rw [RegCall.run, RegisterFile.writeFprLane]
      cases lanePosition index esizeBytes lane with
      | none => rfl
      | some position => exact read_storeFpr r slot index _ _

namespace Routine

variable {ρ ρ' σ σ' : Type} {R : ρ → ρ' → Prop} {S : σ → σ' → Prop}

theorem Matches.andThen {routine : Routine ρ} {routine' : Routine ρ'}
    {next : ρ → Machine → Routine σ} {next' : ρ' → Machine → Routine σ'}
    (h : Matches R routine routine')
    (hnext : ∀ a a' m m', R a a' → Machine.Alike m m' → Matches S (next a m) (next' a' m'))
    {m m' : Machine} (hm : Machine.Alike m m') :
    Matches S (routine.andThen m next) (routine'.andThen m' next') := by
  induction routine generalizing routine' m m' with
  | done a =>
      cases routine' with
      | done a' => exact hnext a a' m m' h hm
      | invoke op' rest' => exact h.elim
  | invoke op rest ih =>
      cases routine' with
      | done a' => exact h.elim
      | invoke op' rest' =>
          obtain ⟨rfl, hrest⟩ := h
          exact ⟨rfl, fun m m' hm => ih m (hrest m m' hm) hm⟩

end Routine

/-- The slot a call on the machine writes. -/
def MachineCall.Writes : MachineCall → Slot → Prop
  | .reg op, slot => op.Writes slot
  | _, _ => False

namespace Exec

/-- Code that looks at no undo log and calls nothing that writes one of the slots. -/
inductive Avoids (slots : Set Slot) : {α : Type} → Exec α → Prop
  | pure {α : Type} (a : α) : Avoids slots (pure a : Exec α)
  | fail {α : Type} (e : EmuError) : Avoids slots (fail e : Exec α)
  | look {α : Type} {f : Machine → α} (h : ∀ m m', Machine.Alike m m' → f m' = f m) :
      Avoids slots (look f)
  | attempt {α : Type} {f : Machine → Except EmuError α}
      (h : ∀ m m', Machine.Alike m m' → f m' = f m) : Avoids slots (attempt f)
  | call {op : MachineCall} (h : ∀ slot ∈ slots, ¬ op.Writes slot) : Avoids slots (call op)
  | store {op : MemCall} {result : Memory → Except EmuError Unit}
      (h : ∀ m m', Memory.Alike m m' → result m' = result m) : Avoids slots (store op result)
  | bind {α β : Type} {x : Exec α} {f : α → Exec β} (hx : Avoids slots x)
      (hf : ∀ a, Avoids slots (f a)) : Avoids slots (x >>= f)

variable {α β : Type} {slots : Set Slot} {x : Exec α}

/-- The code leaves a slot as it was, however it ends. -/
def Conserves (slot : Slot) (x : Exec α) : Prop :=
  ∀ m : Machine, slot.read (x.run m).1.regs = slot.read m.regs

theorem Avoids.conserves (h : x.Avoids slots) {slot : Slot} (hslot : slot ∈ slots) :
    x.Conserves slot := by
  intro m
  induction h generalizing m with
  | pure a => rfl
  | fail e => rfl
  | look h => rfl
  | attempt h => rfl
  | store h => rfl
  | @call op h =>
      cases op with
      | reg op => exact RegCall.read_run (h slot hslot) m.regs
      | mem op => rfl
      | heap op => rfl
  | @bind α β x f hx hf ihx ihf =>
      have hfirst := ihx m
      rw [run_bind]
      rcases hrun : x.run m with ⟨m', e | a⟩
      · rwa [hrun] at hfirst
      · rw [hrun] at hfirst
        exact (ihf a m').trans hfirst

/-- On machines that differ in their undo logs alone the code makes the same calls and ends
alike. -/
theorem Avoids.matches (h : x.Avoids slots) {m m' : Machine} (hm : Machine.Alike m m') :
    Routine.Matches (fun ended ended' => ended' = ended) (x m) (x m') := by
  induction h generalizing m m' with
  | pure a => rfl
  | fail e => rfl
  | look h => exact congrArg Except.ok (h m m' hm)
  | attempt h => exact h m m' hm
  | call h => exact ⟨rfl, fun _ _ _ => rfl⟩
  | store h => exact ⟨rfl, fun _ _ _ => h m.mem m'.mem hm.mem⟩
  | bind hx hf ihx ihf =>
      refine (ihx hm).andThen ?_ hm
      rintro (e | a) ended' m₁ m₁' rfl hm₁
      · rfl
      · exact ihf a hm₁

theorem Avoids.map (f : α → β) (hx : x.Avoids slots) : (f <$> x).Avoids slots :=
  hx.bind fun a => .pure (f a)

theorem avoids_ite {c : Prop} [Decidable c] {x y : Exec α} (hx : x.Avoids slots)
    (hy : y.Avoids slots) : (if c then x else y).Avoids slots := by
  by_cases hc : c
  · rwa [if_pos hc]
  · rwa [if_neg hc]

/-- A call that writes no slot. -/
theorem avoids_call {op : MachineCall} (h : ∀ slot, ¬ op.Writes slot) : (call op).Avoids slots :=
  .call fun slot _ => h slot

theorem avoids_readGpr (index : Nat) (sf : Bool) : (readGpr index sf).Avoids slots := by
  refine (Avoids.look fun m m' hm => ?_).bind fun _ => (avoids_call fun _ => id).bind fun _ =>
    .pure _
  unfold RegisterFile.gprValue
  rw [hm.regs.gpr]

theorem avoids_writeGpr {index : Nat} (h : ∀ slot ∈ slots, ¬ slot.Named index) (sf : Bool)
    (value : Word) : (writeGpr index sf value).Avoids slots := .call h

theorem avoids_readSp : readSp.Avoids slots := .look fun _ _ hm => hm.regs.sp

theorem avoids_readPc : readPc.Avoids slots := .look fun _ _ hm => hm.regs.pc

theorem avoids_readGprOrSp (index : Nat) (sf : Bool) : (readGprOrSp index sf).Avoids slots := by
  refine avoids_ite (.look fun m m' hm => ?_) (avoids_readGpr index sf)
  rw [hm.regs.sp]

theorem avoids_writeGprOrSp {index : Nat} (h : ∀ slot ∈ slots, ¬ slot.NamedOrSp index) (sf : Bool)
    (value : Word) : (writeGprOrSp index sf value).Avoids slots := by
  by_cases hindex : 31 ≤ index
  · rw [writeGprOrSp, if_pos hindex]
    refine .call fun slot hslot => ?_
    rintro rfl
    exact h _ hslot hindex
  · rw [writeGprOrSp, if_neg hindex]
    exact avoids_writeGpr (fun slot hslot => Slot.not_named_of_not_namedOrSp (h slot hslot)) sf
      value

theorem nzcv_alike {m m' : Machine} (hm : Machine.Alike m m') : m'.regs.nzcv = m.regs.nzcv :=
  congrArg RegisterState.nzcv hm.regs

theorem avoids_conditionHolds (cond : Condition) : (conditionHolds cond).Avoids slots := by
  refine (Avoids.look fun m m' hm => ?_).bind fun _ => (avoids_call fun _ => id).bind fun _ =>
    .pure _
  rw [nzcv_alike hm]

theorem avoids_carryFlag : carryFlag.Avoids slots := by
  refine (Avoids.look fun m m' hm => ?_).bind fun _ => (avoids_call fun _ => id).bind fun _ =>
    .pure _
  rw [nzcv_alike hm]

theorem avoids_readFprBits (index : Nat) : (readFprBits index).Avoids slots := by
  refine (Avoids.look fun m m' hm => ?_).bind fun _ => (avoids_call fun _ => id).bind fun _ =>
    .pure _
  unfold RegisterFile.readFprBits
  simp only [hm.regs.fpr]
  split <;> rfl

theorem avoids_readFprQ (index : Nat) : (readFprQ index).Avoids slots := by
  refine .look fun m m' hm => ?_
  rw [hm.regs.fpr]

theorem avoids_readFprLane (index esizeBytes lane : Nat) :
    (readFprLane index esizeBytes lane).Avoids slots := by
  refine .look fun m m' hm => ?_
  rw [hm.regs.fpr]

section Memory

variable (addr : Word)

theorem avoids_readU8 : (readU8 addr).Avoids slots := .attempt fun _ _ hm => hm.mem.readU8 addr

theorem avoids_readU16 : (readU16 addr).Avoids slots := by
  refine .attempt fun m m' hm => ?_
  unfold Memory.readU16
  rw [hm.mem.readLe]

theorem avoids_readU32 : (readU32 addr).Avoids slots := .attempt fun _ _ hm => hm.mem.readU32 addr

theorem avoids_readU64 : (readU64 addr).Avoids slots := .attempt fun _ _ hm => hm.mem.readU64 addr

theorem avoids_readU128 : (readU128 addr).Avoids slots :=
  .attempt fun _ _ hm => hm.mem.readU128 addr

theorem avoids_writeU8 (val : Byte) : (writeU8 addr val).Avoids slots :=
  .store fun _ _ hm => (hm.writeInPage addr [val]).2

theorem avoids_writeU16 (val : BitVec 16) : (writeU16 addr val).Avoids slots :=
  .store fun _ _ hm => (hm.writeLe addr _).2

theorem avoids_writeU32 (val : BitVec 32) : (writeU32 addr val).Avoids slots :=
  .store fun _ _ hm => (hm.writeLe addr _).2

theorem avoids_writeU64 (val : Word) : (writeU64 addr val).Avoids slots :=
  .store fun _ _ hm => (hm.writeLe addr _).2

theorem avoids_writeU128 (val : BitVec 128) : (writeU128 addr val).Avoids slots :=
  .store fun _ _ hm => (hm.writeLe addr _).2

end Memory

end Exec

namespace Execute

open Exec

variable {slots : Set Slot}

section Results

variable {rd : Nat}

/-- What most instructions end with. -/
theorem avoids_result (h : ∀ slot ∈ slots, ¬ slot.Named rd) (sf : Bool) (value : Word) :
    (writeGpr rd sf value >>= fun _ => (pure .advance : Exec ExecResult)).Avoids slots :=
  (avoids_writeGpr h sf value).bind fun _ => .pure _

section AddSub

variable {op : DpOp}
  (h : ∀ slot ∈ slots, ¬ if setsFlags op then slot.Named rd else slot.NamedOrSp rd)

include h

theorem avoids_finishAddSub (sf : Bool) (a b : Word) :
    (finishAddSub op sf rd a b).Avoids slots := by
  rw [finishAddSub]
  by_cases hflags : setsFlags op = true
  · simp only [hflags, if_true] at h ⊢
    exact (avoids_call fun _ => id).bind fun _ => avoids_result h sf _
  · simp only [if_neg hflags] at h ⊢
    exact (avoids_writeGprOrSp h sf _).bind fun _ => .pure _

theorem avoids_execDpImm (sf : Bool) (rn imm shift : Nat) :
    (execDpImm op sf rd rn imm shift).Avoids slots :=
  (avoids_readGprOrSp rn sf).bind fun _ => avoids_finishAddSub h sf _ _

theorem avoids_execDpExt (sf : Bool) (rn rm : Nat) (extend : RegExtend) (shift : Nat) :
    (execDpExt op sf rd rn rm extend shift).Avoids slots :=
  (avoids_readGprOrSp rn sf).bind fun _ =>
    (avoids_readGpr rm sf).bind fun _ => avoids_finishAddSub h sf _ _

end AddSub

theorem avoids_execLogImm {setFlags : Bool} (op : LogOp) (sf : Bool) (rn : Nat) (imm : Word)
    (h : ∀ slot ∈ slots, ¬ if setFlags then slot.Named rd else slot.NamedOrSp rd) :
    (execLogImm op sf rd rn imm setFlags).Avoids slots := by
  apply (avoids_readGpr rn sf).bind
  intro _
  cases setFlags with
  | true => exact (avoids_call fun _ => id).bind fun _ => avoids_result h sf _
  | false => exact (avoids_writeGprOrSp h sf _).bind fun _ => .pure _

theorem avoids_execCondCompare (sub sf : Bool) (rn : Nat) (operand : CondCmpOperand)
    (cond : Condition) (nzcv : Nat) :
    (execCondCompare sub sf rn operand cond nzcv).Avoids slots := by
  apply (avoids_conditionHolds cond).bind
  intro _
  apply avoids_ite
  · apply (avoids_readGpr rn sf).bind
    intro _
    cases operand with
    | reg rm =>
        exact (avoids_readGpr rm sf).bind fun _ =>
          (avoids_call fun _ => id).bind fun _ => .pure _
    | imm value => exact (avoids_call fun _ => id).bind fun _ => .pure _
  · exact (avoids_call fun _ => id).bind fun _ => .pure _

variable (h : ∀ slot ∈ slots, ¬ slot.Named rd)

include h

theorem avoids_execDpReg (op : DpOp) (sf : Bool) (rn rm : Nat) (shift : ShiftType)
    (amount : Nat) : (execDpReg op sf rd rn rm shift amount).Avoids slots :=
  (avoids_readGpr rn sf).bind fun _ => (avoids_readGpr rm sf).bind fun _ =>
    avoids_ite ((avoids_call fun _ => id).bind fun _ => avoids_result h sf _)
      (avoids_result h sf _)

theorem avoids_execDpCarry (sub setFlags sf : Bool) (rn rm : Nat) :
    (execDpCarry sub setFlags sf rd rn rm).Avoids slots :=
  (avoids_readGpr rn sf).bind fun _ => (avoids_readGpr rm sf).bind fun _ =>
    avoids_carryFlag.bind fun _ =>
      avoids_ite ((avoids_call fun _ => id).bind fun _ => avoids_result h sf _)
      (avoids_result h sf _)

theorem avoids_execMoveWide (op : MoveWideOp) (sf : Bool) (imm16 hw : Nat) :
    (execMoveWide op sf rd imm16 hw).Avoids slots := by
  cases op with
  | movn => exact avoids_result h sf _
  | movz => exact avoids_result h sf _
  | movk => exact (avoids_readGpr rd sf).bind fun _ => avoids_result h sf _

theorem avoids_execLogReg (op : LogOp) (sf : Bool) (rn rm : Nat) (shift : ShiftType)
    (amount : Nat) (setFlags invert : Bool) :
    (execLogReg op sf rd rn rm shift amount setFlags invert).Avoids slots :=
  (avoids_readGpr rn sf).bind fun _ => (avoids_readGpr rm sf).bind fun _ =>
    avoids_ite ((avoids_call fun _ => id).bind fun _ => avoids_result h sf _)
      (avoids_result h sf _)

theorem avoids_execCondSel (op : CondSelOp) (sf : Bool) (rn rm : Nat)
    (cond : Condition) : (execCondSel op sf rd rn rm cond).Avoids slots :=
  (avoids_conditionHolds cond).bind fun _ => (avoids_readGpr rn sf).bind fun _ =>
    (avoids_readGpr rm sf).bind fun _ => avoids_result h sf _

theorem avoids_execMulDiv (op : MulDivOp) (sf : Bool) (rn rm : Nat) :
    (execMulDiv op sf rd rn rm).Avoids slots :=
  (avoids_readGpr rn sf).bind fun _ => (avoids_readGpr rm sf).bind fun _ =>
    avoids_result h sf _

theorem avoids_execBitfield (op : BitfieldOp) (sf : Bool) (rn immr imms : Nat) :
    (execBitfield op sf rd rn immr imms).Avoids slots := by
  apply (avoids_readGpr rn sf).bind
  intro _
  apply avoids_ite
  all_goals
    cases op with
    | ubfm => exact avoids_result h sf _
    | sbfm => exact avoids_result h sf _
    | bfm => exact (avoids_readGpr rd sf).bind fun _ => avoids_result h sf _

theorem avoids_execMulAccumulate (op : MulAccumulateOp) (sf : Bool)
    (rn rm ra : Nat) : (execMulAccumulate op sf rd rn rm ra).Avoids slots :=
  (avoids_readGpr rn sf).bind fun _ => (avoids_readGpr rm sf).bind fun _ =>
    (avoids_readGpr ra sf).bind fun _ => avoids_result h sf _

theorem avoids_execDp1 (op : Dp1Op) (sf : Bool) (rn : Nat) :
    (execDp1 op sf rd rn).Avoids slots :=
  (avoids_readGpr rn sf).bind fun _ => avoids_result h sf _

theorem avoids_execMulWide (op : MulWideOp) (rn rm ra : Nat) :
    (execMulWide op rd rn rm ra).Avoids slots := by
  apply (avoids_readGpr rn _).bind
  intro _
  apply (avoids_readGpr rm _).bind
  intro _
  cases op with
  | smull => exact avoids_result h true _
  | umull => exact avoids_result h true _
  | smulh => exact avoids_result h true _
  | umulh => exact avoids_result h true _
  | smaddl => exact ((avoids_readGpr ra true).map _).bind fun _ => avoids_result h true _
  | smsubl => exact ((avoids_readGpr ra true).map _).bind fun _ => avoids_result h true _
  | umaddl => exact ((avoids_readGpr ra true).map _).bind fun _ => avoids_result h true _
  | umsubl => exact ((avoids_readGpr ra true).map _).bind fun _ => avoids_result h true _

theorem avoids_execVarShift (sf : Bool) (rn rm : Nat)
    (shift : ShiftType) : (execVarShift sf rd rn rm shift).Avoids slots :=
  (avoids_readGpr rm sf).bind fun _ => (avoids_readGpr rn sf).bind fun _ =>
    avoids_result h sf _

theorem avoids_execExtr (sf : Bool) (rn rm lsb : Nat) :
    (execExtr sf rd rn rm lsb).Avoids slots :=
  (avoids_readGpr rn sf).bind fun _ => (avoids_readGpr rm sf).bind fun _ =>
    avoids_result h sf _

theorem avoids_execAdr (adrp : Bool) (imm : Word) :
    (execAdr adrp rd imm).Avoids slots :=
  avoids_readPc.bind fun _ => avoids_result h true _

end Results

section LoadStore

variable {rn : Nat} {mode : IndexMode}

/-- The slot a load or store writes its base back to. -/
def writesBase (rn : Nat) (mode : IndexMode) (slot : Slot) : Prop :=
  mode ≠ .signedOffset ∧ slot.NamedOrSp rn

theorem avoids_checkGuestAddress (addr : Word) (access : MemAccess) :
    (checkGuestAddress addr access).Avoids slots :=
  avoids_ite (.fail _) (.pure _)

theorem avoids_checkSpAlignment (rn : Nat) : (checkSpAlignment rn).Avoids slots :=
  avoids_ite
    (avoids_readSp.bind fun _ => avoids_ite (.fail _) (.pure _))
    (.pure _)

/-- An access begins with its base register. -/
theorem avoids_based {α : Type} (rn : Nat) {f : Word → Exec α}
    (hf : ∀ base, (f base).Avoids slots) : (do
      checkSpAlignment rn
      let base ← Exec.readGprOrSp rn true
      f base).Avoids slots :=
  (avoids_checkSpAlignment rn).bind fun _ => (avoids_readGprOrSp rn true).bind hf

theorem avoids_resolveLdstOffset (offset : LdStOffset) :
    (resolveLdstOffset offset).Avoids slots := by
  cases offset with
  | immediate imm => exact .pure _
  | register rm extend shiftAmount =>
      exact (avoids_readGpr rm true).bind fun _ => .pure _

theorem avoids_readSized (size : MemSize) (addr : Word) :
    (readSized size addr).Avoids slots := by
  cases size with
  | b => exact (avoids_readU8 addr).map _
  | h => exact (avoids_readU16 addr).map _
  | w => exact (avoids_readU32 addr).map _
  | x => exact avoids_readU64 addr
  | q => exact .fail _

theorem avoids_writeSized (size : MemSize) (addr value : Word) :
    (writeSized size addr value).Avoids slots := by
  cases size with
  | b => exact avoids_writeU8 addr _
  | h => exact avoids_writeU16 addr _
  | w => exact avoids_writeU32 addr _
  | x => exact avoids_writeU64 addr _
  | q => exact .fail _

theorem avoids_loadFpr (ft : Nat) (size : MemSize) (addr : Word) :
    (loadFpr ft size addr).Avoids slots := by
  cases size with
  | q => exact (avoids_readU128 addr).bind fun _ => avoids_call fun _ => id
  | b => exact (avoids_readSized _ addr).bind fun _ => avoids_call fun _ => id
  | h => exact (avoids_readSized _ addr).bind fun _ => avoids_call fun _ => id
  | w => exact (avoids_readSized _ addr).bind fun _ => avoids_call fun _ => id
  | x => exact (avoids_readSized _ addr).bind fun _ => avoids_call fun _ => id

theorem avoids_storeFpr (ft : Nat) (size : MemSize) (addr : Word) :
    (storeFpr ft size addr).Avoids slots := by
  cases size with
  | q => exact (avoids_readFprQ ft).bind fun _ => avoids_writeU128 addr _
  | b => exact (avoids_readFprBits ft).bind fun _ => avoids_writeSized _ addr _
  | h => exact (avoids_readFprBits ft).bind fun _ => avoids_writeSized _ addr _
  | w => exact (avoids_readFprBits ft).bind fun _ => avoids_writeSized _ addr _
  | x => exact (avoids_readFprBits ft).bind fun _ => avoids_writeSized _ addr _

theorem avoids_pairSized (size : MemSize) {x : Exec Unit} (hx : x.Avoids slots) :
    (pairSized size x).Avoids slots := by
  cases size with
  | b => exact .fail _
  | h => exact .fail _
  | w => exact hx
  | x => exact hx
  | q => exact hx

theorem avoids_execLdrLiteral {rt : Nat} (hrt : ∀ slot ∈ slots, ¬ slot.Named rt) (sf : Bool)
    (offset : Word) : (execLdrLiteral sf rt offset).Avoids slots :=
  avoids_readPc.bind fun _ => (avoids_readSized _ _).bind fun _ => avoids_result hrt sf _

theorem avoids_execFpLdrLiteral (rt : Nat) (offset : Word) (size : MemSize) :
    (execFpLdrLiteral rt offset size).Avoids slots :=
  avoids_readPc.bind fun _ => (avoids_checkGuestAddress _ _).bind fun _ =>
    (avoids_pairSized size (avoids_loadFpr rt size _)).bind fun _ => .pure _

section Base

variable (hrn : ∀ slot ∈ slots, ¬ writesBase rn mode slot)

include hrn

/-- The base keeps its value in the mode that writes nothing back, and where it is another
register. -/
theorem avoids_finish (base offset : Word) :
    (writeBack rn (applyIndexMode base offset mode).2 >>= fun _ =>
      (pure .advance : Exec ExecResult)).Avoids slots := by
  have hback : mode ≠ .signedOffset → ∀ value, (Exec.writeGprOrSp rn true value >>= fun _ =>
      (pure .advance : Exec ExecResult)).Avoids slots := fun hmode value =>
    (avoids_writeGprOrSp (fun slot hslot hbase => hrn slot hslot ⟨hmode, hbase⟩) true value).bind
      fun _ => .pure _
  cases mode with
  | signedOffset => exact (Exec.Avoids.pure _).bind fun _ => .pure _
  | preIndex => exact hback nofun _
  | postIndex => exact hback nofun _

theorem avoids_execLdst {op : LdStOp} {rt : Nat} (offset : LdStOffset) (size : MemSize)
    (hrt : ∀ slot ∈ slots, ¬ (op = .ldr ∧ slot.Named rt)) :
    (execLdst op rt rn offset size mode).Avoids slots := by
  refine avoids_based rn fun base => ?_
  apply (avoids_resolveLdstOffset offset).bind
  intro offsetVal
  cases op with
  | ldr =>
      have hrt : ∀ slot ∈ slots, ¬ slot.Named rt := fun slot hslot hnamed =>
        hrt slot hslot ⟨rfl, hnamed⟩
      exact (avoids_checkGuestAddress _ _).bind fun _ => (avoids_readSized _ _).bind fun _ =>
        (avoids_writeGpr hrt _ _).bind fun _ => avoids_finish hrn base offsetVal
  | str =>
      exact (avoids_checkGuestAddress _ _).bind fun _ =>
        (avoids_readGpr rt true).bind fun _ =>
        (avoids_writeSized _ _ _).bind fun _ => avoids_finish hrn base offsetVal

theorem avoids_execLdrs {rt : Nat} (offset : LdStOffset) (size : MemSize) (sf : Bool)
    (hrt : ∀ slot ∈ slots, ¬ slot.Named rt) :
    (execLdrs rt rn offset size mode sf).Avoids slots := by
  refine avoids_based rn fun base => ?_
  apply (avoids_resolveLdstOffset offset).bind
  intro offsetVal
  apply (avoids_checkGuestAddress _ _).bind
  intro _
  have hend : ∀ value : Word, (Exec.writeGpr rt sf
      (if sf then value else value &&& 0xFFFFFFFF) >>= fun _ =>
        writeBack rn (applyIndexMode base offsetVal mode).2 >>= fun _ =>
          (pure .advance : Exec ExecResult)).Avoids slots := fun value =>
    (avoids_writeGpr hrt sf _).bind fun _ => avoids_finish hrn base offsetVal
  cases size with
  | b => exact ((avoids_readU8 _).map _).bind hend
  | h => exact ((avoids_readU16 _).map _).bind hend
  | w => exact ((avoids_readU32 _).map _).bind hend
  | x => exact (Exec.Avoids.fail _).bind hend
  | q => exact (Exec.Avoids.fail _).bind hend

theorem avoids_execLdstPair {op : LdStPairOp} {rt rt2 : Nat} (sf : Bool) (imm7 : Word)
    (hrt : ∀ slot ∈ slots, ¬ (op ≠ .stp ∧ (slot.Named rt ∨ slot.Named rt2))) :
    (execLdstPair op sf rt rt2 rn imm7 mode).Avoids slots := by
  have hpair : op ≠ .stp → (∀ slot ∈ slots, ¬ slot.Named rt) ∧
      ∀ slot ∈ slots, ¬ slot.Named rt2 := fun hop =>
    ⟨fun slot hslot hnamed => hrt slot hslot ⟨hop, .inl hnamed⟩,
      fun slot hslot hnamed => hrt slot hslot ⟨hop, .inr hnamed⟩⟩
  refine avoids_based rn fun base => ?_
  apply (avoids_checkGuestAddress _ _).bind
  intro _
  apply (avoids_checkGuestAddress _ _).bind
  intro _
  cases op with
  | ldp =>
      obtain ⟨hfirst, hsecond⟩ := hpair nofun
      exact (avoids_readSized _ _).bind fun _ => (avoids_readSized _ _).bind fun _ =>
        (avoids_writeGpr hfirst _ _).bind fun _ => (avoids_writeGpr hsecond _ _).bind fun _ =>
          avoids_finish hrn base imm7
  | ldpsw =>
      obtain ⟨hfirst, hsecond⟩ := hpair nofun
      exact (avoids_readU32 _).bind fun _ => (avoids_readU32 _).bind fun _ =>
        (avoids_writeGpr hfirst _ _).bind fun _ => (avoids_writeGpr hsecond _ _).bind fun _ =>
          avoids_finish hrn base imm7
  | stp =>
      exact (avoids_readGpr rt sf).bind fun _ => (avoids_readGpr rt2 sf).bind fun _ =>
        (avoids_writeSized _ _ _).bind fun _ => (avoids_writeSized _ _ _).bind fun _ =>
          avoids_finish hrn base imm7

theorem avoids_execFpLdst (load : Bool) (ft : Nat) (offset : LdStOffset) (size : MemSize) :
    (execFpLdst load ft rn offset size mode).Avoids slots := by
  refine avoids_based rn fun base => ?_
  apply (avoids_resolveLdstOffset offset).bind
  intro offsetVal
  apply (avoids_checkGuestAddress _ _).bind
  intro _
  exact avoids_ite
    ((avoids_loadFpr ft size _).bind fun _ => avoids_finish hrn base offsetVal)
    ((avoids_storeFpr ft size _).bind fun _ => avoids_finish hrn base offsetVal)

theorem avoids_execFpLdstPair (op : LdStPairOp) (size : MemSize) (rt rt2 : Nat) (imm7 : Word) :
    (execFpLdstPair op size rt rt2 rn imm7 mode).Avoids slots := by
  refine avoids_based rn fun base => ?_
  apply (avoids_checkGuestAddress _ _).bind
  intro _
  apply (avoids_checkGuestAddress _ _).bind
  intro _
  have hloads : ∀ first second : Word,
      (loadFpr rt size first >>= fun _ => loadFpr rt2 size second).Avoids slots :=
    fun first second =>
      (avoids_loadFpr rt size first).bind fun _ => avoids_loadFpr rt2 size second
  refine (avoids_pairSized size ?_).bind fun _ => avoids_finish hrn base imm7
  cases op with
  | ldp => exact hloads _ _
  | ldpsw => exact hloads _ _
  | stp => exact (avoids_storeFpr rt size _).bind fun _ => avoids_storeFpr rt2 size _

end Base

end LoadStore

section Branches

theorem avoids_branchIf (take : Bool) (offset : Word) : (branchIf take offset).Avoids slots :=
  avoids_ite
    (avoids_readPc.bind fun _ => (avoids_call fun _ => id).bind fun _ => .pure _)
    (.pure _)

theorem avoids_execCompareBranch (sf : Bool) (rt : Nat) (nonzero : Bool) (offset : Word) :
    (execCompareBranch sf rt nonzero offset).Avoids slots :=
  (avoids_readGpr rt sf).bind fun _ => avoids_branchIf _ offset

theorem avoids_execTestBranch (rt bitPos : Nat) (nonzero : Bool) (offset : Word) :
    (execTestBranch rt bitPos nonzero offset).Avoids slots :=
  (avoids_readGpr rt true).bind fun _ => avoids_branchIf _ offset

theorem avoids_execBcond (cond : Condition) (offset : Word) :
    (execBcond cond offset).Avoids slots :=
  (avoids_conditionHolds cond).bind fun _ => avoids_branchIf _ offset

theorem avoids_execBrImm {link : Bool} (offset : Word)
    (h : ∀ slot ∈ slots, ¬ (link = true ∧ slot.Named 30)) :
    (execBrImm link offset).Avoids slots := by
  apply avoids_readPc.bind
  intro pc
  have hend : (Exec.writePc (pc + offset) >>= fun _ =>
      (pure .branched : Exec ExecResult)).Avoids slots :=
    (avoids_call fun _ => id).bind fun _ => .pure _
  cases link with
  | false => exact hend
  | true =>
      exact (avoids_writeGpr (fun slot hslot hnamed => h slot hslot ⟨rfl, hnamed⟩) true _).bind
        fun _ => hend

theorem avoids_execBrReg {op : BrRegOp} (rn : Nat)
    (h : ∀ slot ∈ slots, ¬ (op = .blr ∧ slot.Named 30)) : (execBrReg op rn).Avoids slots := by
  apply (avoids_readGpr rn true).bind
  intro target
  apply avoids_readPc.bind
  intro pc
  have hend : (Exec.writePc target >>= fun _ =>
      (pure .branched : Exec ExecResult)).Avoids slots :=
    (avoids_call fun _ => id).bind fun _ => .pure _
  cases op with
  | br => exact hend
  | ret => exact hend
  | blr =>
      exact (avoids_writeGpr (fun slot hslot hnamed => h slot hslot ⟨rfl, hnamed⟩) true _).bind
        fun _ => hend

end Branches

section Structures

variable (s : SimdStructure)

theorem avoids_each {α : Type} {body : α → Exec Unit} (h : ∀ a, (body a).Avoids slots)
    (l : List α) : (Exec.each l body).Avoids slots := by
  induction l with
  | nil => exact .pure _
  | cons a l ih => exact (h a).bind fun _ => ih

theorem avoids_readElement (addr : Word) (esize : Nat) :
    (readElement addr esize).Avoids slots := by
  rw [readElement.eq_def]
  split
  · exact (avoids_readU8 addr).map _
  · exact (avoids_readU16 addr).map _
  · exact (avoids_readU32 addr).map _
  · exact avoids_readU64 addr

theorem avoids_writeElement (addr : Word) (esize : Nat) (value : Word) :
    (writeElement addr esize value).Avoids slots := by
  rw [writeElement.eq_def]
  split
  · exact avoids_writeU8 addr _
  · exact avoids_writeU16 addr _
  · exact avoids_writeU32 addr _
  · exact avoids_writeU64 addr _

theorem avoids_moveElement (element : Word × Nat × Nat) :
    (moveElement s element).Avoids slots := by
  have hlane : (if s.load then (do
        let value ← readElement element.1 s.esize
        Exec.writeFprLane element.2.1 s.esize element.2.2 value)
      else (do
        let value ← Exec.readFprLane element.2.1 s.esize element.2.2
        writeElement element.1 s.esize value)).Avoids slots :=
    avoids_ite ((avoids_readElement _ _).bind fun _ => avoids_call fun _ => id)
      ((avoids_readFprLane _ _ _).bind fun _ => avoids_writeElement _ _ _)
  obtain ⟨load, structures, count, esize, q, shape, rt, rn, post⟩ := s
  cases shape with
  | multiple => exact hlane
  | lane index => exact hlane
  | replicate => exact (avoids_readElement _ _).bind fun _ => avoids_call fun _ => id

theorem avoids_postIndex (base : Word) (total : Nat)
    (h : ∀ slot ∈ slots, ¬ (s.post.isSome = true ∧ slot.NamedOrSp s.rn)) :
    (postIndex s base total).Avoids slots := by
  rw [postIndex]
  cases hpost : s.post with
  | none => exact .pure _
  | some rm =>
      have hrn : ∀ slot ∈ slots, ¬ slot.NamedOrSp s.rn := fun slot hslot hrn =>
        h slot hslot ⟨by rw [hpost]; rfl, hrn⟩
      apply avoids_ite
      · exact (Exec.Avoids.pure _).bind fun _ => avoids_writeGprOrSp hrn true _
      · exact (avoids_readGpr rm true).bind fun _ => avoids_writeGprOrSp hrn true _

theorem avoids_execSimdLdstStructure
    (h : ∀ slot ∈ slots, ¬ (s.post.isSome = true ∧ slot.NamedOrSp s.rn)) :
    (execSimdLdstStructure s).Avoids slots := by
  refine avoids_based s.rn fun base => ?_
  apply (avoids_checkGuestAddress _ _).bind
  intro _
  apply (avoids_checkGuestAddress _ _).bind
  intro _
  have hzero : (zeroFirst s).Avoids slots :=
    avoids_ite (avoids_each (fun _ => avoids_call fun _ => id) _) (.pure _)
  exact hzero.bind fun _ => (avoids_each (avoids_moveElement s) _).bind fun _ =>
    (avoids_postIndex s base _ h).bind fun _ => .pure _

end Structures

end Execute

section Instructions

variable {W : Type} (calls : W → RegisterFile → List RegCall)

/-- The slots the executor can write for an instruction. -/
def Instruction.Writes (slot : Slot) : Instruction (VectorInstr W) → Prop
  | .dpImm op _ rd _ _ _ => if Execute.setsFlags op then slot.Named rd else slot.NamedOrSp rd
  | .dpRegExt op _ rd _ _ _ _ =>
      if Execute.setsFlags op then slot.Named rd else slot.NamedOrSp rd
  | .logImm _ _ rd _ _ setFlags => if setFlags then slot.Named rd else slot.NamedOrSp rd
  | .dpReg _ _ rd _ _ _ _ | .dpCarry _ _ _ rd _ _ | .dataProc1 _ _ rd _
  | .varShift _ rd _ _ _ | .extr _ rd _ _ _ | .moveWide _ _ rd _ _
  | .logReg _ _ rd _ _ _ _ _ _ | .condSel _ _ rd _ _ _ | .mulDiv _ _ rd _ _
  | .mulAccumulate _ _ rd _ _ _ | .mulWide _ rd _ _ _ | .bitfield _ _ rd _ _ _
  | .adr _ rd _ | .ldrLiteral _ rd _ => slot.Named rd
  | .ldSt op rt rn _ _ mode =>
      (op = .ldr ∧ slot.Named rt) ∨ Execute.writesBase rn mode slot
  | .ldrSignExtended rt rn _ _ mode _ => slot.Named rt ∨ Execute.writesBase rn mode slot
  | .ldStPair op _ rt rt2 rn _ mode =>
      (op ≠ .stp ∧ (slot.Named rt ∨ slot.Named rt2)) ∨ Execute.writesBase rn mode slot
  | .fpLdSt _ _ rn _ _ mode _ | .fpLdStPair _ _ _ _ rn _ mode _ =>
      Execute.writesBase rn mode slot
  | .brImm link _ => link = true ∧ slot.Named 30
  | .brReg op _ => op = .blr ∧ slot.Named 30
  | .vector (.ldStStructure s _) => s.post.isSome = true ∧ slot.NamedOrSp s.rn
  | .vector (.registers w) => ∃ regs, ∃ op ∈ calls w regs, op.Writes slot
  | .condCompare .. | .bCond .. | .fpLdrLiteral .. | .compareBranch .. | .testBranch ..
  | .nop | .svc _ | .brk _ => False

theorem avoids_runCalls {slots : Set Slot} {ops : List RegCall}
    (h : ∀ op ∈ ops, ∀ slot ∈ slots, ¬ op.Writes slot) :
    (VectorInstr.runCalls ops).Avoids slots := by
  induction ops with
  | nil => exact .pure _
  | cons op ops ih =>
      obtain ⟨hop, hops⟩ := List.forall_mem_cons.1 h
      exact (Exec.Avoids.call hop).bind fun _ => ih hops

open Execute in
/-- Only what a register instruction of the vector unit looks at is its own. -/
theorem avoids_execute {slots : Set Slot} {i : Instruction (VectorInstr W)}
    (hvector : ∀ w, i ≠ .vector (.registers w)) (h : ∀ slot ∈ slots, ¬ i.Writes calls slot) :
    (execute (VectorInstr.run calls) i).Avoids slots := by
  cases i with
  | dpImm op sf rd rn imm shift => exact avoids_execDpImm h sf rn imm shift
  | dpReg op sf rd rn rm shift amount => exact avoids_execDpReg h op sf rn rm shift amount
  | condCompare sub sf rn operand cond nzcv =>
      exact avoids_execCondCompare sub sf rn operand cond nzcv
  | dataProc1 op sf rd rn => exact avoids_execDp1 h op sf rn
  | varShift sf rd rn rm shift => exact avoids_execVarShift h sf rn rm shift
  | extr sf rd rn rm lsb => exact avoids_execExtr h sf rn rm lsb
  | dpRegExt op sf rd rn rm extend shift => exact avoids_execDpExt h sf rn rm extend shift
  | dpCarry sub setFlags sf rd rn rm => exact avoids_execDpCarry h sub setFlags sf rn rm
  | moveWide op sf rd imm16 hw => exact avoids_execMoveWide h op sf imm16 hw
  | logImm op sf rd rn imm setFlags => exact avoids_execLogImm op sf rn imm h
  | logReg op sf rd rn rm shift amount setFlags invert =>
      exact avoids_execLogReg h op sf rn rm shift amount setFlags invert
  | ldSt op rt rn offset size mode =>
      exact avoids_execLdst (fun slot hslot hrn => h slot hslot (Or.inr hrn)) offset size
        fun slot hslot hrt => h slot hslot (Or.inl hrt)
  | fpLdSt load ft rn offset size mode unscaled => exact avoids_execFpLdst h load ft offset size
  | ldStPair op sf rt rt2 rn imm7 mode =>
      exact avoids_execLdstPair (fun slot hslot hrn => h slot hslot (Or.inr hrn)) sf imm7
        fun slot hslot hrt => h slot hslot (Or.inl hrt)
  | fpLdStPair op size rt rt2 rn imm7 mode noAllocate =>
      exact avoids_execFpLdstPair h op size rt rt2 imm7
  | brImm link offset => exact avoids_execBrImm offset h
  | brReg op rn => exact avoids_execBrReg rn h
  | bCond cond offset => exact avoids_execBcond cond offset
  | condSel op sf rd rn rm cond => exact avoids_execCondSel h op sf rn rm cond
  | mulDiv op sf rd rn rm => exact avoids_execMulDiv h op sf rn rm
  | fpLdrLiteral rt offset size => exact avoids_execFpLdrLiteral rt offset size
  | ldrLiteral sf rt offset => exact avoids_execLdrLiteral h sf offset
  | compareBranch sf rt nonzero offset => exact avoids_execCompareBranch sf rt nonzero offset
  | testBranch rt bitPos nonzero offset => exact avoids_execTestBranch rt bitPos nonzero offset
  | mulAccumulate op sf rd rn rm ra => exact avoids_execMulAccumulate h op sf rn rm ra
  | mulWide op rd rn rm ra => exact avoids_execMulWide h op rn rm ra
  | ldrSignExtended rt rn offset size mode sf =>
      exact avoids_execLdrs (fun slot hslot hrn => h slot hslot (Or.inr hrn)) offset size sf
        fun slot hslot hrt => h slot hslot (Or.inl hrt)
  | bitfield op sf rd rn immr imms => exact avoids_execBitfield h op sf rn immr imms
  | adr adrp rd imm => exact avoids_execAdr h adrp imm
  | nop => exact .pure _
  | svc imm16 => exact .pure _
  | brk imm16 => exact .fail _
  | vector instr =>
      cases instr with
      | ldStStructure s wf => exact avoids_execSimdLdstStructure s h
      | registers w => exact absurd rfl (hvector w)

/-- Execution keeps every slot the instruction does not write, however it ends. -/
theorem conserves_execute {slot : Slot} {i : Instruction (VectorInstr W)}
    (h : ¬ i.Writes calls slot) : (execute (VectorInstr.run calls) i).Conserves slot := by
  by_cases hvector : ∃ w, i = .vector (.registers w)
  · obtain ⟨w, rfl⟩ := hvector
    intro m
    have hops : ∀ op ∈ calls w m.regs, ∀ s ∈ ({slot} : Set Slot), ¬ op.Writes s := by
      rintro op hop s rfl hwrites
      exact h ⟨m.regs, op, hop, hwrites⟩
    exact (avoids_runCalls hops).conserves rfl m
  · have hi : ∀ s ∈ ({slot} : Set Slot), ¬ i.Writes calls s := by
      rintro s rfl
      exact h
    exact (avoids_execute calls (not_exists.mp hvector) hi).conserves rfl

variable {calls}

/-- The platform looks at no undo log if its library and syscalls do not, and the vector unit's
register instructions see the registers alone. -/
theorem blind_isaPlatform {unit : VectorUnit (VectorInstr W)} {host : HostTable}
    {syscall : Nat → HostFn} (hunit : unit.run = VectorInstr.run calls)
    (hcalls : ∀ w r r', RegisterFile.Alike r r' → calls w r' = calls w r)
    (hhost : ∀ entry ∈ host.entries, HostFn.Blind entry.2)
    (hsyscall : ∀ number, HostFn.Blind (syscall number)) :
    (isaPlatform unit host syscall).Blind where
  execute i m m' hm := by
    -- with no slot to spare, every instruction qualifies
    have hmatches : (execute (VectorInstr.run calls) i).Avoids ∅ := by
      by_cases hvector : ∃ w, i = .vector (.registers w)
      · obtain ⟨w, rfl⟩ := hvector
        exact .bind (.look fun m m' hm => hcalls w _ _ hm.regs) fun ops =>
          avoids_runCalls fun _ _ _ hslot => hslot.elim
      · exact avoids_execute calls (not_exists.mp hvector) fun _ hslot => hslot.elim
    rw [← hunit] at hmatches
    exact hmatches.matches hm
  host := hhost
  syscall := hsyscall

end Instructions

end Playground
