/-
The instruction set as the platform a cpu drives: the decoder, the executor, and what the
call stack and the notes on clobbered registers see of an instruction.
-/
import Playground.Isa.Execute
import Playground.Isa.Decode
import Playground.Machine.Step

namespace Playground

variable {V : Type}

namespace Instruction

/-- What an instruction means to the call stack. -/
def callKind : Instruction V → CallKind
  | .brImm true _ => .call
  | .brReg .blr _ => .call
  | .brReg .ret _ => .ret
  | .brReg .br 30 => .ret
  | .ldSt .str 30 _ _ .x _ => .lrStore
  | .ldStPair .stp true rt rt2 _ _ _ => if rt = 30 ∨ rt2 = 30 then .lrStore else .other
  | _ => .other

/-- The bit of a general register; x31 is xzr or sp here, never a tracked register. -/
def xBit (r : Nat) : BitVec 64 := if r < 31 then 1 <<< r else 0

def dBit (r : Nat) : BitVec 64 := 1 <<< (32 + r)

/-- What an instruction reads only to store or copy, if anything. -/
def passiveRead (vector : V → PassiveRead) : Instruction V → PassiveRead
  -- a register that also forms the address is used, not stored
  | .ldSt .str rt rn offset _ _ =>
      let rm := match offset with
        | .register rm _ _ => rm
        | .immediate _ => 31
      .stored (xBit rt &&& ~~~xBit rn &&& ~~~xBit rm)
  | .ldStPair .stp _ rt rt2 rn _ _ => .stored ((xBit rt ||| xBit rt2) &&& ~~~xBit rn)
  | .fpLdSt false ft _ _ _ _ _ => .stored (dBit ft)
  | .fpLdStPair .stp _ rt rt2 _ _ _ _ => .stored (dBit rt ||| dBit rt2)
  -- `mov` is `orr` from the zero register with no shift
  | .logReg .orr _ rd 31 rm _ 0 false false =>
      if rd < 31 ∧ rm < 31 then .copied rm rd else .used
  | .vector instr => vector instr
  | _ => .used

end Instruction

/-- The vector unit: its decoder, its executor and its register moves. -/
structure VectorUnit (V : Type) extends VectorDecoder V where
  run : V → Exec ExecResult
  moves : V → PassiveRead

/-- The platform of this instruction set, with a library and syscalls. -/
def isaPlatform (unit : VectorUnit V) (host : HostTable) (syscall : Nat → HostFn) : Platform where
  Instr := Instruction V
  decode := decode unit.toVectorDecoder
  execute := execute unit.run
  callKind := Instruction.callKind
  passiveRead := Instruction.passiveRead unit.moves
  host := host
  syscall := syscall

namespace Cpu

/-- An instruction that runs and moves on leaves what it made of the machine, at the next
address. -/
theorem instructionStep_advance {p : Platform} {c : Cpu} {pc : Word} {word : BitVec 32}
    {instr : p.Instr} {m : Machine} (hend : c.textEnd ≠ some pc)
    (hword : c.mem.readU32 pc = .ok word) (hdecode : p.decode word = .ok instr)
    (hkind : p.callKind instr = .other)
    (hrun : (p.execute instr c.machine).run c.machine = (m, .ok .advance)) :
    (c.instructionStep p pc).1.machine = { m with regs := m.regs.writePc (pc + 4) } ∧
      (c.instructionStep p pc).1.textEnd = c.textEnd := by
  have hclassify : ∀ c : Cpu, c.classifyOutcome.1.machine = c.machine ∧
      c.classifyOutcome.1.textEnd = c.textEnd := by
    intro c
    unfold classifyOutcome
    split
    · exact ⟨rfl, rfl⟩
    · split
      · exact ⟨rfl, rfl⟩
      · split
        · exact ⟨rfl, rfl⟩
        · split <;> exact ⟨rfl, rfl⟩
  have hnoted : ∀ b : Bool, (if b then { c with lastProgramPc := pc } else c).machine =
      c.machine ∧ (if b then { c with lastProgramPc := pc } else c).textEnd = c.textEnd := by
    intro b
    cases b <;> exact ⟨rfl, rfl⟩
  obtain ⟨hmachine, hstop⟩ := hnoted (c.inProgram pc)
  unfold instructionStep
  rw [if_neg hend]
  generalize (if c.inProgram pc then { c with lastProgramPc := pc } else c) = d at hmachine hstop
  have hword' : d.mem.readU32 pc = .ok word := by
    rw [Cpu.mem, hmachine]
    exact hword
  simp only [hword', hdecode, executeInstruction, hmachine, hrun, finishInstruction, hkind,
    trackCallOrReturn, trapStep, if_true, reduceCtorEq, if_false]
  obtain ⟨hleft, hleftStop⟩ := hclassify
    ({ d with machine := m }.setRegs ((({ d with machine := m } : Cpu).regs).writePc (pc + 4)))
  refine ⟨hleft.trans rfl, hleftStop.trans hstop⟩

end Cpu

end Playground
