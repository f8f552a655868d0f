/-
One step of a cpu on the loads the linker writes: an LDR (literal) leaves the word of its
slot, and a load through an address register leaves what memory has there.
-/
import Playground.Assembler.PlainLoad

namespace Playground

variable {V : Type}

/-- What a register of a width holds of a value. -/
def narrow (sf : Bool) (v : Word) : Word := if sf then v else v &&& 0xFFFFFFFF

theorem narrow_low (sf : Bool) (v : Word) :
    narrow sf (BitVec.ofNat 64 (v.toNat % 256 ^ (if sf then 8 else 4))) = narrow sf v := by
  have hlt := v.isLt
  have hmask : (0xFFFFFFFF : Word).toNat = 2 ^ 32 - 1 := rfl
  apply BitVec.eq_of_toNat_eq
  cases sf with
  | true =>
      simp only [narrow, if_true, BitVec.toNat_ofNat]
      omega
  | false =>
      simp only [narrow, Bool.false_eq_true, if_false, BitVec.toNat_and, hmask,
        Nat.and_two_pow_sub_one_eq_mod, BitVec.toNat_ofNat]
      omega

namespace RegisterFile

/-- What a write leaves; xzr takes nothing. -/
theorem gprValue_writeGpr_self (r : RegisterFile) (index : Nat) (sf : Bool) (value : Word) :
    (r.writeGpr index sf value).gprValue index true =
      if index < 31 then narrow sf value else 0 := by
  unfold writeGpr gprValue
  by_cases h : index < 31
  · simp [h, narrow]
  · simp [h]

theorem fpr_storeFpr_self (r : RegisterFile) {index : Nat} (h : index < 32)
    (value : BitVec 128) : (r.storeFpr index true value).fpr (Fin.ofNat 32 index) = value := by
  have hidx : Fin.ofNat 32 index = ⟨index, h⟩ := Fin.ext (Nat.mod_eq_of_lt h)
  rw [hidx]
  simp [storeFpr, h]

end RegisterFile

theorem add_distance (target pc : Word) : pc + BitVec.ofInt 64 (distance target pc) = target := by
  apply BitVec.eq_of_toInt_eq
  rw [BitVec.toInt_add, BitVec.toInt_ofInt, distance, Int.add_bmod_bmod]
  have hsum : pc.toInt + (target.toInt - pc.toInt) = target.toInt := by omega
  rw [hsum]
  exact BitVec.toInt_bmod_cancel target

namespace Cpu

open Memory (Holds readLe_leBytes readU32_wordBytes)

open Execute (nullPageLimit)

variable {unit : VectorUnit V} {host : HostTable} {syscall : Nat → HostFn} {c : Cpu} {pc : Word}

theorem instructionStep_ldrLiteral {target v : Word} {word : BitVec 32} {sf : Bool} {rt : Nat}
    (hend : c.textEnd ≠ some pc) (hpc : c.regs.pc = pc) (hword : c.mem.Holds (pc, wordBytes word))
    (hencode : encodeLdrLiteral sf rt (distance target pc) = .ok word)
    (hslot : c.mem.Holds (target, Memory.leBytes 8 v.toNat)) :
    (c.instructionStep (isaPlatform unit host syscall) pc).1.regs.gprValue rt true =
        (if rt < 31 then narrow sf v else 0) ∧
      (c.instructionStep (isaPlatform unit host syscall) pc).1.mem = c.mem ∧
      (c.instructionStep (isaPlatform unit host syscall) pc).1.textEnd = c.textEnd := by
  have hread : c.machine.mem.readLe (c.machine.regs.pc + BitVec.ofInt 64 (distance target pc))
      (if sf then 8 else 4) = .ok (v.toNat % 256 ^ (if sf then 8 else 4)) := by
    have hregs : c.machine.regs.pc = pc := hpc
    rw [hregs, add_distance]
    cases sf
    · exact readLe_leBytes (by decide) (by decide) (by decide) hslot
    · exact readLe_leBytes (by decide) (by decide) (by decide) hslot
  have hrun : (execute unit.run (.ldrLiteral sf rt (BitVec.ofInt 64 (distance target pc))) :
      Exec ExecResult).run c.machine = _ := Execute.run_ldrLiteral hread
  obtain ⟨hmachine, hkept⟩ := instructionStep_advance (p := isaPlatform unit host syscall) hend
    (readU32_wordBytes hword) (Decode.decode_ldrLiteral unit.toVectorDecoder hencode) rfl hrun
  refine ⟨?_, ?_, hkept⟩
  · rw [Cpu.regs, hmachine, ← narrow_low sf v]
    exact RegisterFile.gprValue_writeGpr_self _ _ _ _
  · rw [Cpu.mem, hmachine]
    rfl

theorem instructionStep_loadWord {view : Assembler.LoadView} {rn v : Nat} (hfits : view.Fits)
    (hrn : rn < 31) (hend : c.textEnd ≠ some pc)
    (hword : c.mem.Holds (pc, wordBytes (view.loadWord rn)))
    (hguest : nullPageLimit ≤ (c.regs.gprValue rn true).toNat)
    (hread : c.mem.readLe (c.regs.gprValue rn true) view.bytes = .ok v) :
    view.read (c.instructionStep (isaPlatform unit host syscall) pc).1.regs = v := by
  have hlt := Memory.readLe_lt hread
  rcases view with ⟨idx, sf⟩ | ⟨idx, width⟩
  · have hidx : idx ≤ 30 := hfits
    have hdecode := Decode.decode_ldstScaledWord unit.toVectorDecoder
      (show (if sf then 3 else 2) < 4 by cases sf <;> decide) (show 0 < 2 ^ 12 by decide)
      (show rn < 32 by omega) (show idx < 32 by omega)
    have hsize : (MemSize.fromSizeField (if sf then 3 else 2)).bytes =
        (Assembler.LoadView.gpr idx sf).bytes := by
      cases sf <;> rfl
    rw [Nat.zero_mul] at hdecode
    have hrun : (execute unit.run (.ldSt .ldr idx rn (.immediate 0)
        (.fromSizeField (if sf then 3 else 2)) .signedOffset) : Exec ExecResult).run c.machine =
          _ := Execute.run_ldr (by cases sf <;> decide) hrn hguest (by rw [hsize]; exact hread)
    obtain ⟨hmachine, -⟩ := instructionStep_advance (p := isaPlatform unit host syscall) hend
      (readU32_wordBytes hword) hdecode (by cases sf <;> rfl) hrun
    rw [Cpu.regs, hmachine]
    have hvalue := RegisterFile.gprValue_writeGpr_self (c.machine.regs.readGpr rn true).1 idx
      ((MemSize.fromSizeField (if sf then 3 else 2)) = .x) (BitVec.ofNat 64 v)
    rw [if_pos (show idx < 31 by omega)] at hvalue
    show (RegisterFile.gprValue (RegisterFile.writeGpr _ idx _ _) idx true).toNat = v
    rw [hvalue]
    have hmask : (0xFFFFFFFF : Word).toNat = 2 ^ 32 - 1 := rfl
    cases sf with
    | true =>
        have hlt : v < 2 ^ 64 := hlt
        simp only [narrow, MemSize.fromSizeField, if_true, decide_true, BitVec.toNat_ofNat]
        omega
    | false =>
        have hlt : v < 2 ^ 32 := hlt
        have hword : decide (MemSize.fromSizeField 2 = .x) = false := rfl
        simp only [Bool.false_eq_true, if_false, hword, narrow, BitVec.toNat_and, hmask,
          Nat.and_two_pow_sub_one_eq_mod, BitVec.toNat_ofNat]
        omega
  · have hidx : idx ≤ 31 := hfits
    have hdecode := Decode.decode_fpScaledWord unit.toVectorDecoder width
      (show 0 < 2 ^ 12 by decide) (show rn < 32 by omega) (show idx < 32 by omega)
    rw [Nat.zero_mul] at hdecode
    have hrun : (execute unit.run (.fpLdSt true idx rn (.immediate 0) width.memSize .signedOffset
        false) : Exec ExecResult).run c.machine = _ := Execute.run_fpLdr width hrn hguest hread
    obtain ⟨hmachine, -⟩ := instructionStep_advance (p := isaPlatform unit host syscall) hend
      (readU32_wordBytes hword) hdecode (by cases width <;> rfl) hrun
    rw [Cpu.regs, hmachine]
    have hwide : v < 2 ^ 128 := by
      have hpow : 256 ^ width.memSize.bytes ≤ 2 ^ 128 := by cases width <;> decide
      exact Nat.lt_of_lt_of_le hlt hpow
    show (((c.machine.regs.readGpr rn true).1.storeFpr idx true (BitVec.ofNat 128 v)).fpr
      (Fin.ofNat 32 idx)).toNat = v
    rw [RegisterFile.fpr_storeFpr_self _ (by omega), BitVec.toNat_ofNat, Nat.mod_eq_of_lt hwide]

end Cpu

end Playground
