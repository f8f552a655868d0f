/-
When a fault leaves the registers alone.  Code that only looks at registers, or that cannot
fail, is precise; so is code that looks first and only then does what cannot fail.  Most of
the executor is of that kind, and what is not is analysed apart.
-/
import Playground.Isa.SimdStructure
import Playground.Isa.Values

namespace Playground

namespace Exec

variable {α β : Type} {x : Exec α} {f : α → Exec β}

/-- The registers hold what they held, however the code ends. -/
def Quiet (x : Exec α) : Prop := ∀ m, (x.run m).1.regs.values = m.regs.values

/-- The code cannot fail. -/
def Total (x : Exec α) : Prop := ∀ m, ∃ a, (x.run m).2 = .ok a

/-- If the code fails, the registers hold what they held. -/
def Precise (x : Exec α) : Prop :=
  ∀ m e, (x.run m).2 = .error e → (x.run m).1.regs.values = m.regs.values

theorem Quiet.precise (h : x.Quiet) : x.Precise := fun m _ _ => h m

theorem Total.precise (h : x.Total) : x.Precise := by
  intro m e herr
  obtain ⟨a, ha⟩ := h m
  rw [ha] at herr
  cases herr

theorem Quiet.bind (hx : x.Quiet) (hf : ∀ a, (f a).Quiet) : (x >>= f).Quiet := by
  intro m
  have hquiet := hx m
  rw [run_bind]
  rcases hrun : x.run m with ⟨m', a | a⟩
  · rw [hrun] at hquiet
    exact hquiet
  · rw [hrun] at hquiet
    exact (hf a m').trans hquiet

@[simp]
theorem Total.bind (hx : x.Total) (hf : ∀ a, (f a).Total) : (x >>= f).Total := by
  intro m
  obtain ⟨a, ha⟩ := hx m
  rw [run_bind]
  rcases hrun : x.run m with ⟨m', a | a⟩
  · rw [hrun] at ha
    cases ha
  · exact hf a m'

/-- Looking first keeps what follows precise. -/
theorem Quiet.bind_precise (hx : x.Quiet) (hf : ∀ a, (f a).Precise) : (x >>= f).Precise := by
  intro m e herr
  have hquiet := hx m
  rw [run_bind] at herr ⊢
  rcases hrun : x.run m with ⟨m', a | a⟩
  · rw [hrun] at hquiet
    exact hquiet
  · rw [hrun] at hquiet herr
    exact (hf a m' e herr).trans hquiet

/-- What cannot fail may follow anything precise. -/
theorem Precise.bind_total (hx : x.Precise) (hf : ∀ a, (f a).Total) : (x >>= f).Precise := by
  intro m e herr
  have hprecise := hx m
  rw [run_bind] at herr ⊢
  rcases hrun : x.run m with ⟨m', a | a⟩
  · rw [hrun] at hprecise
    exact hprecise a rfl
  · rw [hrun] at herr
    obtain ⟨b, hb⟩ := hf a m'
    simp only [hb] at herr
    cases herr

theorem quiet_map (g : α → β) (hx : x.Quiet) : (g <$> x).Quiet :=
  hx.bind fun _ _ => rfl

@[simp]
theorem total_map (g : α → β) (hx : x.Total) : (g <$> x).Total :=
  hx.bind fun a _ => ⟨g a, rfl⟩

section Primitives

theorem quiet_pure (a : α) : (pure a : Exec α).Quiet := fun _ => rfl

theorem quiet_fail (e : EmuError) : (fail e : Exec α).Quiet := fun _ => rfl

theorem quiet_look (g : Machine → α) : (look g).Quiet := fun _ => rfl

theorem quiet_attempt (g : Machine → Except EmuError α) : (attempt g).Quiet := fun _ => rfl

theorem quiet_store (op : MemCall) (result : Memory → Except EmuError Unit) :
    (store op result).Quiet := fun _ => rfl

@[simp]
theorem total_pure (a : α) : (pure a : Exec α).Total := fun _ => ⟨a, rfl⟩

@[simp]
theorem total_look (g : Machine → α) : (look g).Total := fun m => ⟨g m, rfl⟩

@[simp]
theorem total_call (op : MachineCall) : (call op).Total := fun _ => ⟨(), rfl⟩

theorem quiet_of_reads (h : ∀ m, ∃ a, x.Reads m a) : x.Quiet := by
  intro m
  obtain ⟨a, r, hrun, hvalues⟩ := h m
  rw [hrun]
  exact hvalues

theorem total_of_reads (h : ∀ m, ∃ a, x.Reads m a) : x.Total := by
  intro m
  obtain ⟨a, r, hrun, -⟩ := h m
  exact ⟨a, by rw [hrun]⟩

variable (index : Nat) (sf : Bool)

theorem quiet_readGpr : (readGpr index sf).Quiet :=
  quiet_of_reads fun m => ⟨_, reads_readGpr index sf m⟩

theorem quiet_readGprOrSp : (readGprOrSp index sf).Quiet :=
  quiet_of_reads fun m => ⟨_, reads_readGprOrSp index sf m⟩

theorem quiet_readFprBits : (readFprBits index).Quiet :=
  fun m => m.regs.values_readFprBits index

@[simp]
theorem total_readGpr : (readGpr index sf).Total :=
  total_of_reads fun m => ⟨_, reads_readGpr index sf m⟩

@[simp]
theorem total_readGprOrSp : (readGprOrSp index sf).Total :=
  total_of_reads fun m => ⟨_, reads_readGprOrSp index sf m⟩

@[simp]
theorem total_conditionHolds (cond : Condition) : (conditionHolds cond).Total :=
  total_of_reads fun m => ⟨_, reads_conditionHolds cond m⟩

@[simp]
theorem total_carryFlag : carryFlag.Total := total_of_reads fun m => ⟨_, reads_carryFlag m⟩

@[simp]
theorem total_writeGprOrSp (value : Word) : (writeGprOrSp index sf value).Total := by
  unfold writeGprOrSp
  split
  · exact total_call _
  · exact total_call _

@[simp]
theorem total_writeGpr (value : Word) : (writeGpr index sf value).Total := total_call _

@[simp]
theorem total_assignNzcv (flags : NzcvFlags) : (assignNzcv flags).Total := total_call _

@[simp]
theorem total_setNzcv (flags : NzcvFlags) : (setNzcv flags).Total := total_call _

@[simp]
theorem total_readPc : readPc.Total := total_look _

@[simp]
theorem total_writePc (value : Word) : (writePc value).Total := total_call _

@[simp]
theorem total_ite {c : Prop} [Decidable c] {x y : Exec α} (hx : x.Total) (hy : y.Total) :
    (if c then x else y).Total := by
  split
  · exact hx
  · exact hy

end Primitives

end Exec

namespace Execute

/-- The instructions that neither touch memory nor trap. -/
def Plain {V : Type} : Instruction V → Prop
  | .ldSt .. | .ldStPair .. | .fpLdStPair .. | .ldrLiteral .. | .fpLdrLiteral ..
  | .ldrSignExtended .. | .fpLdSt .. | .brk _ | .vector _ => False
  | _ => True

/-- Code after a read of a register. -/
theorem total_after_gpr {β : Type} {f : Word → Exec β} (index : Nat) (sf : Bool)
    (h : ∀ a, (f a).Total) : (Exec.readGpr index sf >>= f).Total :=
  (Exec.total_readGpr index sf).bind h

theorem total_finishAddSub (op : DpOp) (sf : Bool) (rd : Nat) (a b : Word) :
    (finishAddSub op sf rd a b).Total := by
  unfold finishAddSub
  apply Exec.total_ite <;> simp

theorem total_branchIf (take : Bool) (offset : Word) : (branchIf take offset).Total := by
  unfold branchIf
  apply Exec.total_ite <;> simp

theorem total_execCondCompare (sub sf : Bool) (rn : Nat) (operand : CondCmpOperand)
    (cond : Condition) (nzcv : Nat) : (execCondCompare sub sf rn operand cond nzcv).Total := by
  apply (Exec.total_conditionHolds cond).bind
  intro holds
  apply Exec.total_ite
  · apply total_after_gpr
    intro a
    cases operand with
    | reg rm =>
        apply total_after_gpr
        intro b
        simp
    | imm imm => simp
  · simp

theorem total_execBitfield (op : BitfieldOp) (sf : Bool) (rd rn immr imms : Nat) :
    (execBitfield op sf rd rn immr imms).Total := by
  apply total_after_gpr
  intro src
  apply Exec.total_ite
  · cases op <;> simp
  · cases op <;> simp

theorem total_execMulWide (op : MulWideOp) (rd rn rm ra : Nat) :
    (execMulWide op rd rn rm ra).Total := by
  apply total_after_gpr
  intro a
  apply total_after_gpr
  intro b
  cases op <;> simp

theorem total_execute {V : Type} (vector : V → Exec ExecResult) {instr : Instruction V}
    (h : Plain instr) : (execute vector instr).Total := by
  cases instr with
  | dpImm op sf rd rn imm shift =>
      exact (Exec.total_readGprOrSp rn sf).bind fun _ => total_finishAddSub op sf rd _ _
  | dpReg op sf rd rn rm shift amount =>
      apply total_after_gpr
      intro a
      apply total_after_gpr
      intro b
      apply Exec.total_ite <;> simp
  | condCompare sub sf rn operand cond nzcv =>
      exact total_execCondCompare sub sf rn operand cond nzcv
  | dataProc1 op sf rd rn => simp [execute, execDp1]
  | varShift sf rd rn rm shift =>
      apply total_after_gpr
      intro a
      simp
  | extr sf rd rn rm lsb =>
      apply total_after_gpr
      intro a
      simp
  | dpRegExt op sf rd rn rm extend shift =>
      refine (Exec.total_readGprOrSp rn sf).bind fun _ => ?_
      exact total_after_gpr rm sf fun _ => total_finishAddSub op sf rd _ _
  | dpCarry sub setFlags sf rd rn rm =>
      apply total_after_gpr
      intro a
      apply total_after_gpr
      intro b
      apply Exec.total_carryFlag.bind
      intro carry
      apply Exec.total_ite <;> simp
  | moveWide op sf rd imm16 hw => cases op <;> simp [execute, execMoveWide]
  | logImm op sf rd rn imm setFlags =>
      apply total_after_gpr
      intro a
      apply Exec.total_ite <;> simp
  | logReg op sf rd rn rm shift amount setFlags invert =>
      apply total_after_gpr
      intro a
      apply total_after_gpr
      intro b
      apply Exec.total_ite <;> simp
  | brImm link offset =>
      apply Exec.total_readPc.bind
      intro pc
      apply Exec.total_ite <;> simp
  | brReg op rn =>
      apply total_after_gpr
      intro target
      apply Exec.total_readPc.bind
      intro pc
      apply Exec.total_ite <;> simp
  | bCond cond offset =>
      exact (Exec.total_conditionHolds cond).bind fun _ => total_branchIf _ offset
  | condSel op sf rd rn rm cond =>
      apply (Exec.total_conditionHolds cond).bind
      intro taken
      apply total_after_gpr
      intro a
      simp
  | mulDiv op sf rd rn rm =>
      apply total_after_gpr
      intro a
      simp
  | compareBranch sf rt nonzero offset =>
      exact total_after_gpr rt sf fun _ => total_branchIf _ offset
  | testBranch rt bitPos nonzero offset =>
      exact total_after_gpr rt true fun _ => total_branchIf _ offset
  | mulAccumulate op sf rd rn rm ra =>
      apply total_after_gpr
      intro a
      apply total_after_gpr
      intro b
      simp
  | mulWide op rd rn rm ra => exact total_execMulWide op rd rn rm ra
  | bitfield op sf rd rn immr imms => exact total_execBitfield op sf rd rn immr imms
  | adr adrp rd imm => simp [execute, execAdr]
  | nop => exact Exec.total_pure _
  | svc imm16 => exact Exec.total_pure _
  | _ => exact h.elim

section Memory

theorem quiet_checkGuestAddress (addr : Word) (access : MemAccess) :
    (checkGuestAddress addr access).Quiet := by
  unfold checkGuestAddress
  split
  · exact Exec.quiet_fail _
  · exact Exec.quiet_pure _

theorem quiet_checkSpAlignment (rn : Nat) : (checkSpAlignment rn).Quiet := by
  unfold checkSpAlignment
  split
  · apply (Exec.quiet_look _).bind
    intro sp
    split
    · exact Exec.quiet_fail _
    · exact Exec.quiet_pure _
  · exact Exec.quiet_pure _

theorem quiet_resolveLdstOffset (offset : LdStOffset) : (resolveLdstOffset offset).Quiet := by
  cases offset with
  | immediate imm => exact Exec.quiet_pure _
  | register rm extend shiftAmount =>
      exact (Exec.quiet_readGpr rm true).bind fun _ => Exec.quiet_pure _

theorem quiet_readSized (size : MemSize) (addr : Word) : (readSized size addr).Quiet := by
  cases size with
  | b => exact Exec.quiet_map _ (Exec.quiet_attempt _)
  | h => exact Exec.quiet_map _ (Exec.quiet_attempt _)
  | w => exact Exec.quiet_map _ (Exec.quiet_attempt _)
  | x => exact Exec.quiet_attempt _
  | q => exact Exec.quiet_fail _

theorem quiet_writeSized (size : MemSize) (addr value : Word) :
    (writeSized size addr value).Quiet := by
  cases size with
  | q => exact Exec.quiet_fail _
  | _ => exact fun _ => rfl

theorem total_writeBack (rn : Nat) (writeback : Option Word) : (writeBack rn writeback).Total := by
  cases writeback with
  | none => exact Exec.total_pure _
  | some wb => exact Exec.total_writeGprOrSp rn true wb

/-- The end every load and store shares. -/
theorem total_finish (rn : Nat) (writeback : Option Word) :
    (do writeBack rn writeback; return ExecResult.advance : Exec ExecResult).Total :=
  (total_writeBack rn writeback).bind fun _ => Exec.total_pure _

/-- An access begins with its base register. -/
theorem precise_based {α : Type} (rn : Nat) {f : Word → Exec α} (hf : ∀ base, (f base).Precise) :
    (do
      checkSpAlignment rn
      let base ← Exec.readGprOrSp rn true
      f base).Precise :=
  (quiet_checkSpAlignment rn).bind_precise fun _ =>
    (Exec.quiet_readGprOrSp rn true).bind_precise hf

theorem precise_execLdst (op : LdStOp) (rt rn : Nat) (offset : LdStOffset) (size : MemSize)
    (mode : IndexMode) : (execLdst op rt rn offset size mode).Precise := by
  refine precise_based rn fun base => ?_
  apply (quiet_resolveLdstOffset offset).bind_precise
  intro offsetVal
  cases op with
  | ldr =>
      apply (quiet_checkGuestAddress _ _).bind_precise
      intro _
      apply (quiet_readSized size _).bind_precise
      intro value
      apply Exec.Total.precise
      exact (Exec.total_writeGpr rt _ value).bind fun _ => total_finish rn _
  | str =>
      apply (quiet_checkGuestAddress _ _).bind_precise
      intro _
      apply (Exec.quiet_readGpr rt true).bind_precise
      intro value
      apply (quiet_writeSized size _ value).bind_precise
      intro _
      exact (total_finish rn _).precise

theorem precise_execLdstPair (op : LdStPairOp) (sf : Bool) (rt rt2 rn : Nat) (imm7 : Word)
    (mode : IndexMode) : (execLdstPair op sf rt rt2 rn imm7 mode).Precise := by
  refine precise_based rn fun base => ?_
  apply (quiet_checkGuestAddress _ _).bind_precise
  intro _
  apply (quiet_checkGuestAddress _ _).bind_precise
  intro _
  have hwrites : ∀ (wide : Bool) (v1 v2 : Word), (do
      Exec.writeGpr rt wide v1
      Exec.writeGpr rt2 wide v2
      writeBack rn (applyIndexMode base imm7 mode).2
      return ExecResult.advance : Exec ExecResult).Total := fun wide v1 v2 =>
    (Exec.total_writeGpr rt wide v1).bind fun _ =>
      (Exec.total_writeGpr rt2 wide v2).bind fun _ => total_finish rn _
  cases op with
  | ldp =>
      apply (quiet_readSized _ _).bind_precise
      intro v1
      apply (quiet_readSized _ _).bind_precise
      intro v2
      exact (hwrites sf v1 v2).precise
  | ldpsw =>
      apply (Exec.quiet_attempt _).bind_precise
      intro v1
      apply (Exec.quiet_attempt _).bind_precise
      intro v2
      exact (hwrites true _ _).precise
  | stp =>
      apply (Exec.quiet_readGpr rt sf).bind_precise
      intro v1
      apply (Exec.quiet_readGpr rt2 sf).bind_precise
      intro v2
      apply (quiet_writeSized _ _ v1).bind_precise
      intro _
      apply (quiet_writeSized _ _ v2).bind_precise
      intro _
      exact (total_finish rn _).precise

theorem precise_execLdrs (rt rn : Nat) (offset : LdStOffset) (size : MemSize) (mode : IndexMode)
    (sf : Bool) : (execLdrs rt rn offset size mode sf).Precise := by
  refine precise_based rn fun base => ?_
  apply (quiet_resolveLdstOffset offset).bind_precise
  intro offsetVal
  apply (quiet_checkGuestAddress _ _).bind_precise
  intro _
  have hwrites : ∀ value : Word, (do
      Exec.writeGpr rt sf value
      writeBack rn (applyIndexMode base offsetVal mode).2
      return ExecResult.advance : Exec ExecResult).Total := fun value =>
    (Exec.total_writeGpr rt sf value).bind fun _ => total_finish rn _
  cases size with
  | b => exact (Exec.quiet_map _ (Exec.quiet_attempt _)).bind_precise fun v => (hwrites _).precise
  | h => exact (Exec.quiet_map _ (Exec.quiet_attempt _)).bind_precise fun v => (hwrites _).precise
  | w => exact (Exec.quiet_map _ (Exec.quiet_attempt _)).bind_precise fun v => (hwrites _).precise
  | x => exact (Exec.quiet_fail _).bind_precise fun v => (hwrites _).precise
  | q => exact (Exec.quiet_fail _).bind_precise fun v => (hwrites _).precise

theorem precise_execLdrLiteral (sf : Bool) (rt : Nat) (offset : Word) :
    (execLdrLiteral sf rt offset).Precise := by
  apply (Exec.quiet_look _).bind_precise
  intro pc
  apply (quiet_readSized _ _).bind_precise
  intro value
  apply Exec.Total.precise
  exact (Exec.total_writeGpr rt sf value).bind fun _ => Exec.total_pure _

/-- A load of one SIMD&FP register reads before it writes. -/
theorem precise_loadFpr (ft : Nat) (size : MemSize) (addr : Word) :
    (loadFpr ft size addr).Precise := by
  cases size with
  | q => exact (Exec.quiet_attempt _).bind_precise fun v => (Exec.total_call _).precise
  | _ => exact (quiet_readSized _ _).bind_precise fun v => (Exec.total_call _).precise

theorem quiet_storeFpr (ft : Nat) (size : MemSize) (addr : Word) :
    (storeFpr ft size addr).Quiet := by
  cases size with
  | q => exact (Exec.quiet_look _).bind fun v => Exec.quiet_store _ _
  | _ => exact (Exec.quiet_readFprBits ft).bind fun v => quiet_writeSized _ _ _

theorem precise_execFpLdst (load : Bool) (ft rn : Nat) (offset : LdStOffset) (size : MemSize)
    (mode : IndexMode) : (execFpLdst load ft rn offset size mode).Precise := by
  refine precise_based rn fun base => ?_
  apply (quiet_resolveLdstOffset offset).bind_precise
  intro offsetVal
  apply (quiet_checkGuestAddress _ _).bind_precise
  intro _
  cases load with
  | true => exact (precise_loadFpr ft size _).bind_total fun _ => total_finish rn _
  | false => exact (quiet_storeFpr ft size _).bind_precise fun _ => (total_finish rn _).precise

theorem precise_execFpLdrLiteral (rt : Nat) (offset : Word) (size : MemSize) :
    (execFpLdrLiteral rt offset size).Precise := by
  apply (Exec.quiet_look _).bind_precise
  intro pc
  apply (quiet_checkGuestAddress _ _).bind_precise
  intro _
  have hload : (pairSized size (loadFpr rt size (pc + offset))).Precise := by
    unfold pairSized
    split
    · exact (Exec.quiet_fail _).precise
    · exact (Exec.quiet_fail _).precise
    · exact precise_loadFpr rt size _
  exact hload.bind_total fun _ => Exec.total_pure _

end Memory

end Execute

end Playground
