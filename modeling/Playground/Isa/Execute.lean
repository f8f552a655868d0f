/-
The executor: one decoded instruction against the registers and memory.
-/
import Playground.Isa.Exec
import Playground.Isa.Instruction

namespace Playground

/-- The bits a register of this width has. -/
def widthMask (sf : Bool) : Word := if sf then BitVec.allOnes 64 else 0xFFFFFFFF

def applyShift (value : Word) (shift : ShiftType) (amount : Nat) (sf : Bool) : Word :=
  let amount := amount % (if sf then 64 else 32)
  let val := value &&& widthMask sf
  let result := match shift with
    | .lsl => val <<< amount
    | .lsr => val >>> amount
    | .asr =>
        if sf then val.sshiftRight amount
        else ((val.setWidth 32).sshiftRight amount).setWidth 64
    | .ror =>
        if amount = 0 then val
        else if sf then val.rotateRight amount
        else ((val.setWidth 32).rotateRight amount).setWidth 64
  result &&& widthMask sf

namespace Execute

def signBit (sf : Bool) : Nat := if sf then 63 else 31

/-- The flags of `result = a + b`. -/
def addFlags (a b result : Word) (sf : Bool) : NzcvFlags :=
  let ra := a &&& widthMask sf
  let rb := b &&& widthMask sf
  let rr := result &&& widthMask sf
  let sa := ra.getLsbD (signBit sf)
  let sb := rb.getLsbD (signBit sf)
  let sr := rr.getLsbD (signBit sf)
  { n := sr
    z := decide (rr = 0)
    c := if sf then decide (rr < ra) else decide (2 ^ 32 ≤ ra.toNat + rb.toNat)
    v := sa == sb && sa != sr }

/-- The flags of `result = a - b`; the carry means no borrow. -/
def subFlags (a b result : Word) (sf : Bool) : NzcvFlags :=
  let ra := a &&& widthMask sf
  let rb := b &&& widthMask sf
  let rr := result &&& widthMask sf
  let sa := ra.getLsbD (signBit sf)
  let sb := rb.getLsbD (signBit sf)
  let sr := rr.getLsbD (signBit sf)
  { n := sr
    z := decide (rr = 0)
    c := decide (rb ≤ ra)
    v := sa != sb && sa != sr }

/-- `a + b + carry` at a register's width, and its flags. -/
def addWithCarry (a b : Word) (carryIn sf : Bool) : Word × NzcvFlags :=
  let ra := a &&& widthMask sf
  let rb := b &&& widthMask sf
  let usum := ra.toNat + rb.toNat + carryIn.toNat
  let result := BitVec.ofNat 64 usum &&& widthMask sf
  let sa := ra.getLsbD (signBit sf)
  let sb := rb.getLsbD (signBit sf)
  let sr := result.getLsbD (signBit sf)
  (result,
    { n := sr
      z := decide (result = 0)
      c := decide ((widthMask sf).toNat < usum)
      v := sa == sb && sa != sr })

/-- The flags of a logical result. -/
def logicFlags (result : Word) (sf : Bool) : NzcvFlags :=
  let rr := result &&& widthMask sf
  { n := rr.getLsbD (signBit sf), z := decide (rr = 0), c := false, v := false }

/-- The sum or difference an ADD or SUB leaves, and its flags. -/
def addSub (op : DpOp) (a b : Word) (sf : Bool) : Word × NzcvFlags :=
  match op with
  | .add | .adds =>
      let r := (a + b) &&& widthMask sf
      (r, addFlags a b r sf)
  | .sub | .subs =>
      let r := (a - b) &&& widthMask sf
      (r, subFlags a b r sf)

def setsFlags : DpOp → Bool
  | .adds | .subs => true
  | .add | .sub => false

/-- The flag-setting forms write a general register, the others may write SP. -/
def finishAddSub (op : DpOp) (sf : Bool) (rd : Nat) (a b : Word) : Exec ExecResult := do
  let (result, flags) := addSub op a b sf
  if setsFlags op then
    Exec.assignNzcv flags
    Exec.writeGpr rd sf result
  else
    Exec.writeGprOrSp rd sf result
  return .advance

def execDpImm (op : DpOp) (sf : Bool) (rd rn imm shift : Nat) : Exec ExecResult := do
  let operand1 ← Exec.readGprOrSp rn sf
  finishAddSub op sf rd operand1 (BitVec.ofNat 64 imm <<< shift)

def execDpReg (op : DpOp) (sf : Bool) (rd rn rm : Nat) (shift : ShiftType) (amount : Nat) :
    Exec ExecResult := do
  let operand1 ← Exec.readGpr rn sf
  let value ← Exec.readGpr rm sf
  let (result, flags) := addSub op operand1 (applyShift value shift amount sf) sf
  if setsFlags op then
    Exec.assignNzcv flags
  Exec.writeGpr rd sf result
  return .advance

def execDpCarry (sub setFlags sf : Bool) (rd rn rm : Nat) : Exec ExecResult := do
  let operand1 ← Exec.readGpr rn sf
  let value ← Exec.readGpr rm sf
  let operand2 := if sub then ~~~value &&& widthMask sf else value
  let carry ← Exec.carryFlag
  let (result, flags) := addWithCarry operand1 operand2 carry sf
  if setFlags then
    Exec.assignNzcv flags
  Exec.writeGpr rd sf result
  return .advance

/-- Extend Rm's value by the option field. -/
def extendReg (value : Word) : RegExtend → Word
  | .uxtb => value &&& 0xFF
  | .uxth => value &&& 0xFFFF
  | .uxtw => value &&& 0xFFFFFFFF
  | .uxtx => value
  | .sxtb => (value.setWidth 8).signExtend 64
  | .sxth => (value.setWidth 16).signExtend 64
  | .sxtw => (value.setWidth 32).signExtend 64
  | .sxtx => value

def execDpExt (op : DpOp) (sf : Bool) (rd rn rm : Nat) (extend : RegExtend) (shift : Nat) :
    Exec ExecResult := do
  let operand1 ← Exec.readGprOrSp rn sf
  let value ← Exec.readGpr rm sf
  finishAddSub op sf rd operand1 ((extendReg value extend <<< shift) &&& widthMask sf)

def execMoveWide (op : MoveWideOp) (sf : Bool) (rd imm16 hw : Nat) : Exec ExecResult := do
  let shift := hw * 16
  let value := BitVec.ofNat 64 imm16 <<< shift
  match op with
  | .movz => Exec.writeGpr rd sf value
  | .movn => Exec.writeGpr rd sf (~~~value &&& widthMask sf)
  | .movk =>
      let old ← Exec.readGpr rd sf
      Exec.writeGpr rd sf ((old &&& ~~~((0xFFFF : Word) <<< shift)) ||| value)
  return .advance

def logical (op : LogOp) (a b : Word) : Word :=
  match op with
  | .and => a &&& b
  | .orr => a ||| b
  | .eor => a ^^^ b

def execLogImm (op : LogOp) (sf : Bool) (rd rn : Nat) (imm : Word) (setFlags : Bool) :
    Exec ExecResult := do
  let operand1 ← Exec.readGpr rn sf
  let result := logical op operand1 imm &&& widthMask sf
  if setFlags then
    Exec.assignNzcv (logicFlags result sf)
    Exec.writeGpr rd sf result
  else
    Exec.writeGprOrSp rd sf result
  return .advance

def execLogReg (op : LogOp) (sf : Bool) (rd rn rm : Nat) (shift : ShiftType) (amount : Nat)
    (setFlags invert : Bool) : Exec ExecResult := do
  let operand1 ← Exec.readGpr rn sf
  let value ← Exec.readGpr rm sf
  let shifted := applyShift value shift amount sf
  let operand2 := if invert then ~~~shifted &&& widthMask sf else shifted
  let result := logical op operand1 operand2 &&& widthMask sf
  if setFlags then
    Exec.assignNzcv (logicFlags result sf)
  Exec.writeGpr rd sf result
  return .advance

def execCondCompare (sub sf : Bool) (rn : Nat) (operand : CondCmpOperand) (cond : Condition)
    (nzcv : Nat) : Exec ExecResult := do
  let holds ← Exec.conditionHolds cond
  if holds then
    let a ← Exec.readGpr rn sf
    let b ← match operand with
      | .reg rm => Exec.readGpr rm sf
      | .imm imm => pure (BitVec.ofNat 64 imm)
    Exec.setNzcv (if sub then subFlags a b (a - b) sf else addFlags a b (a + b) sf)
  else
    Exec.setNzcv (.unpack nzcv)
  return .advance

def execCondSel (op : CondSelOp) (sf : Bool) (rd rn rm : Nat) (cond : Condition) :
    Exec ExecResult := do
  let taken ← Exec.conditionHolds cond
  let valN ← Exec.readGpr rn sf
  let valM ← Exec.readGpr rm sf
  let other := match op with
    | .csel => valM
    | .csinc => (valM + 1) &&& widthMask sf
    | .csinv => ~~~valM &&& widthMask sf
    | .csneg => -valM &&& widthMask sf
  Exec.writeGpr rd sf (if taken then valN else other)
  return .advance

def mulDiv (op : MulDivOp) (sf : Bool) (a b : Word) : Word :=
  match op with
  | .mul => (a * b) &&& widthMask sf
  | .udiv => if b = 0 then 0 else (a / b) &&& widthMask sf
  | .sdiv =>
      if b = 0 then 0
      else if sf then a.sdiv b &&& widthMask sf
      else ((a.setWidth 32).sdiv (b.setWidth 32)).setWidth 64 &&& widthMask sf

def execMulDiv (op : MulDivOp) (sf : Bool) (rd rn rm : Nat) : Exec ExecResult := do
  let a ← Exec.readGpr rn sf
  let b ← Exec.readGpr rm sf
  Exec.writeGpr rd sf (mulDiv op sf a b)
  return .advance

/-- The low `topBit + 1` bits of a value, sign-extended. -/
def signExtendFrom (value : Word) (topBit : Nat) : Word :=
  if 63 ≤ topBit then value
  else (value <<< (63 - topBit)).sshiftRight (63 - topBit)

/-- The low `width` bits. -/
def maskFor (width : Nat) : Word :=
  if 64 ≤ width then BitVec.allOnes 64 else (1 <<< width) - 1

def execBitfield (op : BitfieldOp) (sf : Bool) (rd rn immr imms : Nat) : Exec ExecResult := do
  let datasize := if sf then 64 else 32
  let src ← Exec.readGpr rn sf
  let r := immr % datasize
  let s := imms % datasize
  if r ≤ s then
    -- the field at bit `r` comes down to bit zero
    let width := s - r + 1
    let field := (src >>> r) &&& maskFor width
    match op with
    | .ubfm => Exec.writeGpr rd sf field
    | .sbfm => Exec.writeGpr rd sf (signExtendFrom field (width - 1))
    | .bfm =>
        let old ← Exec.readGpr rd sf
        Exec.writeGpr rd sf ((old &&& ~~~maskFor width) ||| field)
  else
    -- the low field goes up to bit `datasize - r`
    let width := s + 1
    let shift := datasize - r
    let placed := (src &&& maskFor width) <<< shift
    match op with
    | .ubfm => Exec.writeGpr rd sf placed
    | .sbfm => Exec.writeGpr rd sf (signExtendFrom placed (shift + s))
    | .bfm =>
        let old ← Exec.readGpr rd sf
        Exec.writeGpr rd sf ((old &&& ~~~(maskFor width <<< shift)) ||| placed)
  return .advance

def execMulAccumulate (op : MulAccumulateOp) (sf : Bool) (rd rn rm ra : Nat) :
    Exec ExecResult := do
  let a ← Exec.readGpr rn sf
  let b ← Exec.readGpr rm sf
  let c ← Exec.readGpr ra sf
  let result := match op with
    | .madd => (c + a * b) &&& widthMask sf
    | .msub => (c - a * b) &&& widthMask sf
  Exec.writeGpr rd sf result
  return .advance

/-- The low `n` bytes in reverse. -/
def swapBytes (n : Nat) (v : Word) : Word :=
  BitVec.ofNat 64 (Memory.leValue (Memory.leBytes n v.toNat).reverse)

/-- The one-source operation at 64 bits. -/
def dp1Wide (op : Dp1Op) (v : Word) : Word :=
  match op with
  | .rbit => v.reverse
  | .rev16 => ((v &&& 0x00FF00FF00FF00FF) <<< 8) ||| ((v >>> 8) &&& 0x00FF00FF00FF00FF)
  | .rev32 => (swapBytes 4 (v >>> 32) <<< 32) ||| swapBytes 4 v
  | .rev => swapBytes 8 v
  | .clz => v.clz
  | .cls => BitVec.ofNat 64 (max v.clz.toNat (~~~v).clz.toNat - 1)

/-- The one-source operation at 32 bits; REV32 has none of its own. -/
def dp1Narrow (op : Dp1Op) (w : BitVec 32) : BitVec 32 :=
  match op with
  | .rbit => w.reverse
  | .rev16 => ((w &&& 0x00FF00FF) <<< 8) ||| ((w >>> 8) &&& 0x00FF00FF)
  | .rev32 | .rev => (swapBytes 4 (w.setWidth 64)).setWidth 32
  | .clz => w.clz
  | .cls => BitVec.ofNat 32 (max w.clz.toNat (~~~w).clz.toNat - 1)

def execDp1 (op : Dp1Op) (sf : Bool) (rd rn : Nat) : Exec ExecResult := do
  let v ← Exec.readGpr rn sf
  Exec.writeGpr rd sf (if sf then dp1Wide op v else (dp1Narrow op (v.setWidth 32)).setWidth 64)
  return .advance

def signedWord (v : Word) : Word := (v.setWidth 32).signExtend 64

def execMulWide (op : MulWideOp) (rd rn rm ra : Nat) : Exec ExecResult := do
  let high := op = .smulh ∨ op = .umulh
  let a ← Exec.readGpr rn high
  let b ← Exec.readGpr rm high
  let result ← match op with
    | .smull => pure (signedWord a * signedWord b)
    | .umull => pure (a * b)
    | .smulh => pure ((a.signExtend 128 * b.signExtend 128).extractLsb' 64 64)
    | .umulh => pure ((a.setWidth 128 * b.setWidth 128).extractLsb' 64 64)
    | .smaddl => (· + signedWord a * signedWord b) <$> Exec.readGpr ra true
    | .smsubl => (· - signedWord a * signedWord b) <$> Exec.readGpr ra true
    | .umaddl => (· + a * b) <$> Exec.readGpr ra true
    | .umsubl => (· - a * b) <$> Exec.readGpr ra true
  Exec.writeGpr rd true result
  return .advance

def execVarShift (sf : Bool) (rd rn rm : Nat) (shift : ShiftType) : Exec ExecResult := do
  let amount ← Exec.readGpr rm sf
  let value ← Exec.readGpr rn sf
  Exec.writeGpr rd sf (applyShift value shift (amount.toNat % 256) sf)
  return .advance

def execExtr (sf : Bool) (rd rn rm lsb : Nat) : Exec ExecResult := do
  let width := if sf then 64 else 32
  let high ← Exec.readGpr rn sf
  let low ← Exec.readGpr rm sf
  let pair : BitVec 128 := (high.setWidth 128 <<< width) ||| low.setWidth 128
  Exec.writeGpr rd sf ((pair >>> lsb).setWidth 64)
  return .advance

section LoadStore

def nullPageLimit : Nat := 4096

def checkGuestAddress (addr : Word) (access : MemAccess) : Exec Unit :=
  if addr.toNat < nullPageLimit then Exec.fail (.nullPointerAccess addr access) else pure ()

/-- A base of SP has to be a multiple of sixteen. -/
def checkSpAlignment (rn : Nat) : Exec Unit :=
  if 31 ≤ rn then do
    let sp ← Exec.readSp
    if sp.toNat % 16 ≠ 0 then Exec.fail (.spAlignmentFault sp false) else pure ()
  else pure ()

/-- The displacement an offset operand contributes. -/
def resolveLdstOffset : LdStOffset → Exec Word
  | .immediate imm => pure imm
  | .register rm extend shiftAmount => do
      let raw ← Exec.readGpr rm true
      let extended : Word := match extend with
        | .lsl | .sxtx => raw
        | .uxtw => raw &&& 0xFFFFFFFF
        | .sxtw => signedWord raw
      return extended <<< shiftAmount.getD 0

/-- The accessed address, and what is written back to the base if anything is. -/
def applyIndexMode (base offset : Word) : IndexMode → Word × Option Word
  | .preIndex => (base + offset, some (base + offset))
  | .postIndex => (base, some (base + offset))
  | .signedOffset => (base + offset, none)

def writeBack (rn : Nat) (writeback : Option Word) : Exec Unit :=
  match writeback with
  | some wb => Exec.writeGprOrSp rn true wb
  | none => pure ()

/-- A load's value, zero-extended. -/
def readSized (size : MemSize) (addr : Word) : Exec Word :=
  match size with
  | .b => (·.setWidth 64) <$> Exec.readU8 addr
  | .h => (·.setWidth 64) <$> Exec.readU16 addr
  | .w => (·.setWidth 64) <$> Exec.readU32 addr
  | .x => Exec.readU64 addr
  | .q => Exec.fail (.unknownInstruction 0)

def writeSized (size : MemSize) (addr value : Word) : Exec Unit :=
  match size with
  | .b => Exec.writeU8 addr (value.setWidth 8)
  | .h => Exec.writeU16 addr (value.setWidth 16)
  | .w => Exec.writeU32 addr (value.setWidth 32)
  | .x => Exec.writeU64 addr value
  | .q => Exec.fail (.unknownInstruction 0)

def execLdst (op : LdStOp) (rt rn : Nat) (offset : LdStOffset) (size : MemSize)
    (mode : IndexMode) : Exec ExecResult := do
  checkSpAlignment rn
  let base ← Exec.readGprOrSp rn true
  let offsetVal ← resolveLdstOffset offset
  let (address, writeback) := applyIndexMode base offsetVal mode
  match op with
  | .ldr =>
      checkGuestAddress address .read
      let value ← readSized size address
      Exec.writeGpr rt (size = .x) value
  | .str =>
      checkGuestAddress address .write
      let value ← Exec.readGpr rt true
      writeSized size address value
  writeBack rn writeback
  return .advance

def pairAccess : LdStPairOp → MemAccess
  | .stp => .write
  | .ldp | .ldpsw => .read

def execLdstPair (op : LdStPairOp) (sf : Bool) (rt rt2 rn : Nat) (imm7 : Word)
    (mode : IndexMode) : Exec ExecResult := do
  checkSpAlignment rn
  let base ← Exec.readGprOrSp rn true
  let (address, writeback) := applyIndexMode base imm7 mode
  let pairSize : Word := if sf ∧ op ≠ .ldpsw then 8 else 4
  checkGuestAddress address (pairAccess op)
  checkGuestAddress (address + pairSize) (pairAccess op)
  let size : MemSize := if sf then .x else .w
  match op with
  | .ldp =>
      let v1 ← readSized size address
      let v2 ← readSized size (address + pairSize)
      Exec.writeGpr rt sf v1
      Exec.writeGpr rt2 sf v2
  | .ldpsw =>
      let v1 ← Exec.readU32 address
      let v2 ← Exec.readU32 (address + pairSize)
      Exec.writeGpr rt true (v1.signExtend 64)
      Exec.writeGpr rt2 true (v2.signExtend 64)
  | .stp =>
      let v1 ← Exec.readGpr rt sf
      let v2 ← Exec.readGpr rt2 sf
      writeSized size address v1
      writeSized size (address + pairSize) v2
  writeBack rn writeback
  return .advance

/-- Load a SIMD&FP register; the bits above the loaded width become zero. -/
def loadFpr (ft : Nat) (size : MemSize) (addr : Word) : Exec Unit :=
  match size with
  | .q => do Exec.writeFprQ ft (← Exec.readU128 addr)
  | size => do Exec.writeFprScalar ft size.bytes (← readSized size addr)

/-- Store the low bytes of a SIMD&FP register. -/
def storeFpr (ft : Nat) (size : MemSize) (addr : Word) : Exec Unit :=
  match size with
  | .q => do Exec.writeU128 addr (← Exec.readFprQ ft)
  | size => do writeSized size addr (← Exec.readFprBits ft)

def execFpLdst (load : Bool) (ft rn : Nat) (offset : LdStOffset) (size : MemSize)
    (mode : IndexMode) : Exec ExecResult := do
  checkSpAlignment rn
  let base ← Exec.readGprOrSp rn true
  let offsetVal ← resolveLdstOffset offset
  let (address, writeback) := applyIndexMode base offsetVal mode
  checkGuestAddress address (if load then .read else .write)
  if load then loadFpr ft size address else storeFpr ft size address
  writeBack rn writeback
  return .advance

/-- The widths a SIMD&FP pair or literal load has. -/
def pairSized (size : MemSize) (x : Exec Unit) : Exec Unit :=
  match size with
  | .b | .h => Exec.fail (.unknownInstruction 0)
  | _ => x

def execFpLdstPair (op : LdStPairOp) (size : MemSize) (rt rt2 rn : Nat) (imm7 : Word)
    (mode : IndexMode) : Exec ExecResult := do
  checkSpAlignment rn
  let base ← Exec.readGprOrSp rn true
  let (address, writeback) := applyIndexMode base imm7 mode
  let second := address + BitVec.ofNat 64 size.bytes
  checkGuestAddress address (pairAccess op)
  checkGuestAddress second (pairAccess op)
  pairSized size do
    match op with
    | .ldp | .ldpsw =>
        loadFpr rt size address
        loadFpr rt2 size second
    | .stp =>
        storeFpr rt size address
        storeFpr rt2 size second
  writeBack rn writeback
  return .advance

def execLdrLiteral (sf : Bool) (rt : Nat) (offset : Word) : Exec ExecResult := do
  let pc ← Exec.readPc
  let value ← readSized (if sf then .x else .w) (pc + offset)
  Exec.writeGpr rt sf value
  return .advance

def execFpLdrLiteral (rt : Nat) (offset : Word) (size : MemSize) : Exec ExecResult := do
  let pc ← Exec.readPc
  checkGuestAddress (pc + offset) .read
  pairSized size (loadFpr rt size (pc + offset))
  return .advance

def execLdrs (rt rn : Nat) (offset : LdStOffset) (size : MemSize) (mode : IndexMode)
    (sf : Bool) : Exec ExecResult := do
  checkSpAlignment rn
  let base ← Exec.readGprOrSp rn true
  let offsetVal ← resolveLdstOffset offset
  let (address, writeback) := applyIndexMode base offsetVal mode
  checkGuestAddress address .read
  let value ← match size with
    | .b => (·.signExtend 64) <$> Exec.readU8 address
    | .h => (·.signExtend 64) <$> Exec.readU16 address
    | .w => (·.signExtend 64) <$> Exec.readU32 address
    | .x | .q => Exec.fail (.unknownInstruction 0)
  Exec.writeGpr rt sf (if sf then value else value &&& 0xFFFFFFFF)
  writeBack rn writeback
  return .advance

end LoadStore

section Branch

/-- Branch by `offset` from the instruction if `take` says so. -/
def branchIf (take : Bool) (offset : Word) : Exec ExecResult :=
  if take then do
    let pc ← Exec.readPc
    Exec.writePc (pc + offset)
    return .branched
  else pure .advance

def execCompareBranch (sf : Bool) (rt : Nat) (nonzero : Bool) (offset : Word) :
    Exec ExecResult := do
  let value ← Exec.readGpr rt sf
  branchIf (if nonzero then value ≠ 0 else value = 0) offset

def execTestBranch (rt bitPos : Nat) (nonzero : Bool) (offset : Word) : Exec ExecResult := do
  let value ← Exec.readGpr rt true
  branchIf (if nonzero then value.getLsbD bitPos else !value.getLsbD bitPos) offset

def execBrImm (link : Bool) (offset : Word) : Exec ExecResult := do
  let pc ← Exec.readPc
  if link then
    Exec.writeGpr 30 true (pc + 4)
  Exec.writePc (pc + offset)
  return .branched

def execBrReg (op : BrRegOp) (rn : Nat) : Exec ExecResult := do
  let target ← Exec.readGpr rn true
  let pc ← Exec.readPc
  if op = .blr then
    Exec.writeGpr 30 true (pc + 4)
  Exec.writePc target
  return .branched

def execBcond (cond : Condition) (offset : Word) : Exec ExecResult := do
  let holds ← Exec.conditionHolds cond
  branchIf holds offset

end Branch

def execAdr (adrp : Bool) (rd : Nat) (imm : Word) : Exec ExecResult := do
  let pc ← Exec.readPc
  let base := if adrp then pc &&& ~~~0xFFF else pc
  Exec.writeGpr rd true (base + imm)
  return .advance

def breakpointTrap (imm16 : Nat) : String :=
  "Trace/breakpoint trap\n`brk #" ++ toString imm16 ++ "` stops the program here, as it " ++
  "does on the servers. gcc plants one where it proved the code can only fault, such as " ++
  "a use of a pointer that is NULL on this path"

end Execute

open Execute in
/-- Execute a decoded instruction; `vector` runs those of the vector unit. -/
def execute {V : Type} (vector : V → Exec ExecResult) : Instruction V → Exec ExecResult
  | .dpImm op sf rd rn imm shift => execDpImm op sf rd rn imm shift
  | .dpReg op sf rd rn rm shift amount => execDpReg op sf rd rn rm shift amount
  | .dpRegExt op sf rd rn rm extend shift => execDpExt op sf rd rn rm extend shift
  | .dpCarry sub setFlags sf rd rn rm => execDpCarry sub setFlags sf rd rn rm
  | .condCompare sub sf rn operand cond nzcv => execCondCompare sub sf rn operand cond nzcv
  | .dataProc1 op sf rd rn => execDp1 op sf rd rn
  | .varShift sf rd rn rm shift => execVarShift sf rd rn rm shift
  | .extr sf rd rn rm lsb => execExtr sf rd rn rm lsb
  | .moveWide op sf rd imm16 hw => execMoveWide op sf rd imm16 hw
  | .logImm op sf rd rn imm setFlags => execLogImm op sf rd rn imm setFlags
  | .logReg op sf rd rn rm shift amount setFlags invert =>
      execLogReg op sf rd rn rm shift amount setFlags invert
  | .ldSt op rt rn offset size mode => execLdst op rt rn offset size mode
  | .ldStPair op sf rt rt2 rn imm7 mode => execLdstPair op sf rt rt2 rn imm7 mode
  | .fpLdStPair op size rt rt2 rn imm7 mode _ => execFpLdstPair op size rt rt2 rn imm7 mode
  | .ldrLiteral sf rt offset => execLdrLiteral sf rt offset
  | .fpLdrLiteral rt offset size => execFpLdrLiteral rt offset size
  | .compareBranch sf rt nonzero offset => execCompareBranch sf rt nonzero offset
  | .testBranch rt bitPos nonzero offset => execTestBranch rt bitPos nonzero offset
  | .brImm link offset => execBrImm link offset
  | .brReg op rn => execBrReg op rn
  | .bCond cond offset => execBcond cond offset
  | .condSel op sf rd rn rm cond => execCondSel op sf rd rn rm cond
  | .mulDiv op sf rd rn rm => execMulDiv op sf rd rn rm
  | .mulAccumulate op sf rd rn rm ra => execMulAccumulate op sf rd rn rm ra
  | .mulWide op rd rn rm ra => execMulWide op rd rn rm ra
  | .ldrSignExtended rt rn offset size mode sf => execLdrs rt rn offset size mode sf
  | .fpLdSt load ft rn offset size mode _ => execFpLdst load ft rn offset size mode
  | .bitfield op sf rd rn immr imms => execBitfield op sf rd rn immr imms
  | .adr adrp rd imm => execAdr adrp rd imm
  | .nop => pure .advance
  | .svc imm16 => pure (if imm16 = 0 then .syscall else .halted)
  | .brk imm16 => Exec.fail (.runtimeError (breakpointTrap imm16))
  | .vector instr => vector instr

end Playground
