/-
Decoded instructions.  Registers and small unsigned fields are numbers; displacements
are `i64` words.  The scalar floating-point and vector instructions beyond loads and
stores are left to a parameter, `V`.
-/
import Playground.Machine.Registers

namespace Playground

/-- How a register operand is shifted. -/
inductive ShiftType
  | lsl | lsr | asr | ror
deriving DecidableEq, Repr

namespace ShiftType

/-- From the 2-bit shift field. -/
def fromBits (val : Nat) : ShiftType :=
  match val % 4 with
  | 0 => lsl
  | 1 => lsr
  | 2 => asr
  | _ => ror

end ShiftType

inductive DpOp
  | add | adds | sub | subs
deriving DecidableEq, Repr

inductive MoveWideOp
  | movn | movz | movk
deriving DecidableEq, Repr

inductive LogOp
  | and | orr | eor
deriving DecidableEq, Repr

inductive LdStOp
  | ldr | str
deriving DecidableEq, Repr

/-- Access size of a single-register load or store; `q` is for SIMD&FP only. -/
inductive MemSize
  | b | h | w | x | q
deriving DecidableEq, Repr

namespace MemSize

/-- The width a 2-bit `size` field names. -/
def fromSizeField (size : Nat) : MemSize :=
  match size % 4 with
  | 0 => b
  | 1 => h
  | 2 => w
  | _ => x

def bytes : MemSize → Nat
  | b => 1
  | h => 2
  | w => 4
  | x => 8
  | q => 16

/-- `bytes().trailing_zeros()`. -/
def log2 : MemSize → Nat
  | b => 0
  | h => 1
  | w => 2
  | x => 3
  | q => 4

end MemSize

inductive LdStPairOp
  | ldp | stp
  /-- Two words, each sign-extended into an X register. -/
  | ldpsw
deriving DecidableEq, Repr

/-- Addressing mode of a load or store. -/
inductive IndexMode
  | signedOffset | preIndex | postIndex
deriving DecidableEq, Repr

/-- How an index register is extended into an address. -/
inductive ExtendType
  | uxtw | lsl | sxtw | sxtx
deriving DecidableEq, Repr

/-- The keywords a register-offset address accepts: the spelling, its `option` field,
and whether the index register must be an X. -/
def ldstExtends : List (List Char × Nat × Bool) :=
  [(['l', 's', 'l'], 0b011, true), (['u', 'x', 't', 'w'], 0b010, false),
    (['s', 'x', 't', 'w'], 0b110, false), (['s', 'x', 't', 'x'], 0b111, true),
    (['u', 'x', 't', 'x'], 0b011, true)]

/-- The extension of Rm in the extended-register ADD/SUB form. -/
inductive RegExtend
  | uxtb | uxth | uxtw | uxtx | sxtb | sxth | sxtw | sxtx
deriving DecidableEq, Repr

def RegExtend.fromOption (option : Nat) : RegExtend :=
  match option % 8 with
  | 0 => uxtb
  | 1 => uxth
  | 2 => uxtw
  | 3 => uxtx
  | 4 => sxtb
  | 5 => sxth
  | 6 => sxtw
  | _ => sxtx

inductive LdStOffset
  | immediate (offset : Word)
  /-- `shiftAmount` is the log of the access width when the scale bit is set. -/
  | register (rm : Nat) (extend : ExtendType) (shiftAmount : Option Nat)
deriving DecidableEq, Repr

inductive BrRegOp
  | br | blr | ret
deriving DecidableEq, Repr

inductive CondSelOp
  | csel | csinc | csinv | csneg
deriving DecidableEq, Repr

inductive MulDivOp
  | mul | udiv | sdiv
deriving DecidableEq, Repr

inductive MulAccumulateOp
  | madd | msub
deriving DecidableEq, Repr

inductive MulWideOp
  | smull | umull | smulh | umulh | smaddl | smsubl | umaddl | umsubl
deriving DecidableEq, Repr

/-- The second operand of a conditional compare. -/
inductive CondCmpOperand
  | reg (rm : Nat)
  | imm (value : Nat)
deriving DecidableEq, Repr

inductive Dp1Op
  | rbit | rev16 | rev32 | rev | clz | cls
deriving DecidableEq, Repr

/-- The one-source rows: mnemonic, opcode, the width the row requires if it has only
one, and the operation. -/
def dp1Ops : List (List Char × Nat × Option Bool × Dp1Op) :=
  [(['r', 'b', 'i', 't'], 0b000000, none, .rbit),
    (['r', 'e', 'v', '1', '6'], 0b000001, none, .rev16),
    (['r', 'e', 'v', '3', '2'], 0b000010, some true, .rev32),
    (['r', 'e', 'v'], 0b000010, some false, .rev),
    (['r', 'e', 'v'], 0b000011, some true, .rev),
    (['c', 'l', 'z'], 0b000100, none, .clz),
    (['c', 'l', 's'], 0b000101, none, .cls)]

inductive BitfieldOp
  | sbfm | ubfm | bfm
deriving DecidableEq, Repr

/-- A decoded instruction. -/
inductive Instruction (V : Type)
  | dpImm (op : DpOp) (sf : Bool) (rd rn imm shift : Nat)
  | dpReg (op : DpOp) (sf : Bool) (rd rn rm : Nat) (shift : ShiftType) (amount : Nat)
  | condCompare (sub sf : Bool) (rn : Nat) (operand : CondCmpOperand) (cond : Condition)
      (nzcv : Nat)
  | dataProc1 (op : Dp1Op) (sf : Bool) (rd rn : Nat)
  | varShift (sf : Bool) (rd rn rm : Nat) (shift : ShiftType)
  | extr (sf : Bool) (rd rn rm lsb : Nat)
  | dpRegExt (op : DpOp) (sf : Bool) (rd rn rm : Nat) (extend : RegExtend) (shift : Nat)
  | dpCarry (sub setFlags sf : Bool) (rd rn rm : Nat)
  | moveWide (op : MoveWideOp) (sf : Bool) (rd imm16 hw : Nat)
  | logImm (op : LogOp) (sf : Bool) (rd rn : Nat) (imm : Word) (setFlags : Bool)
  | logReg (op : LogOp) (sf : Bool) (rd rn rm : Nat) (shift : ShiftType) (amount : Nat)
      (setFlags invert : Bool)
  | ldSt (op : LdStOp) (rt rn : Nat) (offset : LdStOffset) (size : MemSize) (mode : IndexMode)
  | fpLdSt (load : Bool) (ft rn : Nat) (offset : LdStOffset) (size : MemSize)
      (mode : IndexMode) (unscaled : Bool)
  | ldStPair (op : LdStPairOp) (sf : Bool) (rt rt2 rn : Nat) (imm7 : Word) (mode : IndexMode)
  | fpLdStPair (op : LdStPairOp) (size : MemSize) (rt rt2 rn : Nat) (imm7 : Word)
      (mode : IndexMode) (noAllocate : Bool)
  | brImm (link : Bool) (offset : Word)
  | brReg (op : BrRegOp) (rn : Nat)
  | bCond (cond : Condition) (offset : Word)
  | condSel (op : CondSelOp) (sf : Bool) (rd rn rm : Nat) (cond : Condition)
  | mulDiv (op : MulDivOp) (sf : Bool) (rd rn rm : Nat)
  | fpLdrLiteral (rt : Nat) (offset : Word) (size : MemSize)
  | ldrLiteral (sf : Bool) (rt : Nat) (offset : Word)
  | compareBranch (sf : Bool) (rt : Nat) (nonzero : Bool) (offset : Word)
  | testBranch (rt bitPos : Nat) (nonzero : Bool) (offset : Word)
  | mulAccumulate (op : MulAccumulateOp) (sf : Bool) (rd rn rm ra : Nat)
  | mulWide (op : MulWideOp) (rd rn rm ra : Nat)
  | ldrSignExtended (rt rn : Nat) (offset : LdStOffset) (size : MemSize) (mode : IndexMode)
      (sf : Bool)
  | bitfield (op : BitfieldOp) (sf : Bool) (rd rn immr imms : Nat)
  | adr (adrp : Bool) (rd : Nat) (imm : Word)
  | nop
  | svc (imm16 : Nat)
  | brk (imm16 : Nat)
  | vector (instr : V)
deriving DecidableEq, Repr

end Playground
