/-
The decoder: an instruction word to a typed instruction.  The scalar floating-point
group and the structure loads and stores are a parameter's, the vector unit's.
-/
import Playground.Isa.Instruction
import Playground.Library.Fields

namespace Playground

open Fields (bits)

namespace Condition

/-- From the 4-bit condition field; 1111 runs as `al`. -/
def fromBits (val : Nat) : Condition :=
  match val % 16 with
  | 0 => eq
  | 1 => ne
  | 2 => hs
  | 3 => lo
  | 4 => mi
  | 5 => pl
  | 6 => vs
  | 7 => vc
  | 8 => hi
  | 9 => ls
  | 10 => ge
  | 11 => lt
  | 12 => gt
  | 13 => le
  | _ => al

/-- The condition's number. -/
def toBits : Condition → Nat
  | eq => 0
  | ne => 1
  | hs => 2
  | lo => 3
  | mi => 4
  | pl => 5
  | vs => 6
  | vc => 7
  | hi => 8
  | ls => 9
  | ge => 10
  | lt => 11
  | gt => 12
  | le => 13
  | al => 14

/-- Flip the low bit; `al` stays. -/
def invert (cond : Condition) : Condition :=
  if 0b1110 ≤ cond.toBits then al else fromBits (cond.toBits ^^^ 1)

end Condition

/-- The part of the decoder that reads scalar floating-point and vector words. -/
structure VectorDecoder (V : Type) where
  decodeFpGroup : BitVec 32 → Except EmuError V
  decodeSimdLdstStructure : BitVec 32 → Option V

namespace Decode

variable {V : Type}

def bit (instr : BitVec 32) (pos : Nat) : Nat := bits instr pos pos

def flag (instr : BitVec 32) (pos : Nat) : Bool := decide (bit instr pos = 1)

/-- The low `width` bits of a number as a signed one. -/
def signExtend (val width : Nat) : Word := (BitVec.ofNat width val).signExtend 64

def unknown (instr : BitVec 32) : Except EmuError (Instruction V) :=
  .error (.unknownInstruction instr)

section Bitmask

def highestBit (value : Nat) : Nat → Nat
  | 0 => 0
  | len + 1 => if value.testBit (len + 1) then len + 1 else highestBit value len

/-- Copy a `width`-bit element across a word, doubling. -/
def replicate (result : Word) (width : Nat) : Nat → Word
  | 0 => result
  | fuel + 1 =>
      if width < 64 then replicate (result ||| (result <<< width)) (width * 2) fuel else result

/-- Rotate the low `esize` bits right by `r`. -/
def rotateElement (element : Word) (esize r : Nat) (mask : Word) : Word :=
  if r = 0 then element else ((element >>> r) ||| (element <<< (esize - r))) &&& mask

/-- The low `esize` bits set. -/
def elementMask (esize : Nat) : Word :=
  if esize = 64 then BitVec.allOnes 64 else (1 <<< esize) - 1

/-- The pattern an N:immr:imms triple stands for: ones in an element, rotated, and
repeated. -/
def decodeBitmaskImm (n : Bool) (immr imms : Nat) (sf : Bool) : Option Word :=
  let notImms := 0x3F - imms % 64
  if n = false ∧ notImms = 0 then none
  else
    let len := if n then 6 else highestBit notImms 5
    if sf = false ∧ n = true then none
    else
      let esize := 2 ^ len
      let s := imms % esize
      let r := immr % esize
      if s = esize - 1 then none
      else
        let ones : Word := (1 <<< (s + 1)) - 1
        let element := rotateElement ones esize r (elementMask esize)
        let result := replicate element esize 6
        some (if sf then result else result &&& 0xFFFFFFFF)

/-- The imms field of a run of `sVal + 1` ones in an element of `2 ^ len` bits. -/
def bitmaskImms (len sVal : Nat) : Nat :=
  if len = 6 then sVal % 64
  else (2 ^ (5 - len) - 1) * 2 ^ (len + 1) + sVal % 2 ^ len

/-- Whether `value` repeats its low `2 ^ len` bits. -/
def repeats (value : Word) (esize : Nat) (mask element : Word) : Bool :=
  (List.range (64 / esize)).all fun i => (value >>> (i * esize)) &&& mask == element

/-- The triple for a value that repeats an element of `2 ^ len` bits, if it does. -/
def bitmaskAt (value : Word) (len : Nat) : Option (Bool × Nat × Nat) :=
  let esize := 2 ^ len
  let mask := elementMask esize
  let element := value &&& mask
  if ¬ repeats value esize mask element ∨ element = 0 ∨ element = mask then none
  else
    let ones := element.cpop.toNat
    ((List.range esize).find? fun r =>
        decide (rotateElement element esize r mask = (1 <<< ones) - 1)).map fun r =>
      (decide (len = 6), (esize - r) % esize, bitmaskImms len (ones - 1))

/-- A value as the triple `decodeBitmaskImm` reads, or `none` when no triple stands for
it. -/
def encodeBitmaskImm (value : Word) (sf : Bool) : Option (Bool × Nat × Nat) :=
  let trimmed := if sf then value else value &&& 0xFFFFFFFF
  if sf = false ∧ value ≠ trimmed then none
  else if trimmed = 0 then none
  else if sf = true ∧ trimmed = BitVec.allOnes 64 then none
  else if sf = false ∧ trimmed = 0xFFFFFFFF then none
  else
    let replicated := if sf then trimmed else trimmed ||| (trimmed <<< 32)
    (if sf then [1, 2, 3, 4, 5, 6] else [1, 2, 3, 4, 5]).findSome? (bitmaskAt replicated)

end Bitmask

section DataProcessing

variable (instr : BitVec 32)

/-- The fields most classes share. -/
def sf : Bool := flag instr 31

def rd : Nat := bits instr 4 0

def rn : Nat := bits instr 9 5

def rm : Nat := bits instr 20 16

def decodeExtract : Except EmuError (Instruction V) :=
  let n := flag instr 22
  let imms := bits instr 15 10
  if bits instr 30 29 ≠ 0 ∨ bit instr 21 ≠ 0 ∨ sf instr ≠ n ∨ (sf instr = false ∧ 32 ≤ imms) then
    unknown instr
  else if rm instr ≠ rn instr then
    .ok (.extr (sf instr) (rd instr) (rn instr) (rm instr) imms)
  else .ok (.logReg .orr (sf instr) (rd instr) 31 (rn instr) .ror imms false false)

def decodeAdr : Except EmuError (Instruction V) :=
  let adrp := flag instr 31
  let imm21 := bits instr 23 5 * 4 + bits instr 30 29
  let imm := signExtend imm21 21
  .ok (.adr adrp (rd instr) (if adrp then imm <<< 12 else imm))

/-- ADD, ADDS, SUB or SUBS by the op and S bits. -/
def dpOp (op s : Nat) : DpOp :=
  match op, s with
  | 0, 0 => .add
  | 0, _ => .adds
  | _, 0 => .sub
  | _, _ => .subs

def decodeAddSubImm : Except EmuError (Instruction V) :=
  .ok (.dpImm (dpOp (bit instr 30) (bit instr 29)) (sf instr) (rd instr) (rn instr)
    (bits instr 21 10) (bit instr 22 * 12))

def decodeMoveWide : Except EmuError (Instruction V) :=
  let hw := bits instr 22 21
  let imm16 := bits instr 20 5
  if sf instr = false ∧ 2 ≤ hw then unknown instr
  else
    match bits instr 30 29 with
    | 0b00 => .ok (.moveWide .movn (sf instr) (rd instr) imm16 hw)
    | 0b10 => .ok (.moveWide .movz (sf instr) (rd instr) imm16 hw)
    | 0b11 => .ok (.moveWide .movk (sf instr) (rd instr) imm16 hw)
    | _ => unknown instr

/-- The operation of a logical opc field; 11 is ANDS. -/
def logOp : Nat → LogOp
  | 0b01 => .orr
  | 0b10 => .eor
  | _ => .and

def decodeLogicalImm : Except EmuError (Instruction V) :=
  let opc := bits instr 30 29
  match decodeBitmaskImm (flag instr 22) (bits instr 21 16) (bits instr 15 10) (sf instr) with
  | none => unknown instr
  | some imm =>
      .ok (.logImm (logOp opc) (sf instr) (rd instr) (rn instr) imm (decide (opc = 0b11)))

/-- A shift by an immediate, as ORR with a shifted register. -/
def shiftAlias (shift : ShiftType) (amount : Nat) : Instruction V :=
  .logReg .orr (sf instr) (rd instr) 31 (rn instr) shift amount false false

def decodeBitfield : Except EmuError (Instruction V) :=
  let n := flag instr 22
  let immr := bits instr 21 16
  let imms := bits instr 15 10
  let regSize := if sf instr then 64 else 32
  let move (op : BitfieldOp) : Except EmuError (Instruction V) :=
    .ok (.bitfield op (sf instr) (rd instr) (rn instr) immr imms)
  if sf instr ≠ n ∨ (sf instr = false ∧ (32 ≤ immr ∨ 32 ≤ imms)) then unknown instr
  else
    match bits instr 30 29 with
    | 0b00 => if imms = regSize - 1 then .ok (shiftAlias instr .asr immr) else move .sbfm
    | 0b10 =>
        if imms = regSize - 1 then .ok (shiftAlias instr .lsr immr)
        else if immr ≠ 0 ∧ imms + 1 = immr then .ok (shiftAlias instr .lsl (regSize - immr))
        else move .ubfm
    | 0b01 => move .bfm
    | _ => unknown instr

def decodeDpImmGroup : Except EmuError (Instruction V) :=
  if bits instr 28 24 = 0b10000 then decodeAdr instr
  else
    match bits instr 25 23 with
    | 0b010 => decodeAddSubImm instr
    | 0b101 => decodeMoveWide instr
    | 0b100 => decodeLogicalImm instr
    | 0b110 => decodeBitfield instr
    | 0b111 => decodeExtract instr
    | _ => unknown instr

def decodeAddSubExt : Except EmuError (Instruction V) :=
  let shift := bits instr 12 10
  if bits instr 23 22 ≠ 0 then unknown instr
  else if 4 < shift then unknown instr
  else .ok (.dpRegExt (dpOp (bit instr 30) (bit instr 29)) (sf instr) (rd instr) (rn instr)
    (rm instr) (.fromOption (bits instr 15 13)) shift)

def decodeAddSubReg : Except EmuError (Instruction V) :=
  if bit instr 21 = 1 then decodeAddSubExt instr
  else .ok (.dpReg (dpOp (bit instr 30) (bit instr 29)) (sf instr) (rd instr) (rn instr)
    (rm instr) (.fromBits (bits instr 23 22)) (bits instr 15 10))

def decodeAddSubCarry : Except EmuError (Instruction V) :=
  .ok (.dpCarry (flag instr 30) (flag instr 29) (sf instr) (rd instr) (rn instr) (rm instr))

def decodeLogicalReg : Except EmuError (Instruction V) :=
  let opc := bits instr 30 29
  .ok (.logReg (logOp opc) (sf instr) (rd instr) (rn instr) (rm instr)
    (.fromBits (bits instr 23 22)) (bits instr 15 10) (decide (opc = 0b11)) (flag instr 21))

def decodeCondCompare : Except EmuError (Instruction V) :=
  if bit instr 29 ≠ 1 ∨ bit instr 10 ≠ 0 ∨ bit instr 4 ≠ 0 then unknown instr
  else
    let field := bits instr 20 16
    .ok (.condCompare (flag instr 30) (sf instr) (rn instr)
      (if bit instr 11 = 1 then .imm field else .reg field)
      (.fromBits (bits instr 15 12)) (bits instr 3 0))

def condSelOp (op op2 : Nat) : CondSelOp :=
  match op, op2 with
  | 0, 0 => .csel
  | 0, _ => .csinc
  | _, 0 => .csinv
  | _, _ => .csneg

def decodeCondSelect : Except EmuError (Instruction V) :=
  .ok (.condSel (condSelOp (bit instr 30) (bit instr 10)) (sf instr) (rd instr) (rn instr)
    (rm instr) (.fromBits (bits instr 15 12)))

/-- The two-source group, which the one-source group shares by bit 30. -/
def decodeDp2 : Except EmuError (Instruction V) :=
  let opcode := bits instr 15 10
  if bit instr 30 ≠ 0 then
    if bit instr 29 ≠ 0 ∨ bits instr 20 16 ≠ 0 then unknown instr
    else
      match dp1Ops.find? fun row =>
          decide (row.2.1 = opcode) && row.2.2.1.all fun want => want == sf instr with
      | none => unknown instr
      | some row => .ok (.dataProc1 row.2.2.2 (sf instr) (rd instr) (rn instr))
  else if bit instr 29 ≠ 0 then unknown instr
  else if opcode / 4 = 0b0010 then
    .ok (.varShift (sf instr) (rd instr) (rn instr) (rm instr) (.fromBits (opcode % 4)))
  else
    match opcode with
    | 0b000010 => .ok (.mulDiv .udiv (sf instr) (rd instr) (rn instr) (rm instr))
    | 0b000011 => .ok (.mulDiv .sdiv (sf instr) (rd instr) (rn instr) (rm instr))
    | _ => unknown instr

/-- The widening and high-half multiply of a three-source word. -/
def mulWideOp (op31 o0 : Nat) (plain : Bool) : Option MulWideOp :=
  match op31, o0, plain with
  | 0b001, 0, true => some .smull
  | 0b101, 0, true => some .umull
  | 0b010, 0, true => some .smulh
  | 0b110, 0, true => some .umulh
  | 0b001, 0, false => some .smaddl
  | 0b001, 1, _ => some .smsubl
  | 0b101, 0, false => some .umaddl
  | 0b101, 1, _ => some .umsubl
  | _, _, _ => none

def decodeDp3 : Except EmuError (Instruction V) :=
  let op31 := bits instr 23 21
  let o0 := bit instr 15
  let ra := bits instr 14 10
  if op31 = 0b000 then
    if ra = 31 ∧ o0 = 0 then .ok (.mulDiv .mul (sf instr) (rd instr) (rn instr) (rm instr))
    else .ok (.mulAccumulate (if o0 = 0 then .madd else .msub) (sf instr) (rd instr)
      (rn instr) (rm instr) ra)
  else if sf instr then
    match mulWideOp op31 o0 (decide (ra = 31)) with
    | some op => .ok (.mulWide op (rd instr) (rn instr) (rm instr) ra)
    | none => unknown instr
  else unknown instr

def decodeDpRegGroup : Except EmuError (Instruction V) :=
  match bit instr 28, bit instr 24 with
  | 0, 0 => decodeLogicalReg instr
  | 0, _ => decodeAddSubReg instr
  | _, 0 =>
      let sub := bits instr 23 21
      if sub = 0b000 ∧ bits instr 15 10 = 0 then decodeAddSubCarry instr
      else if sub = 0b010 then decodeCondCompare instr
      else if sub = 0b100 then decodeCondSelect instr
      else decodeDp2 instr
  | _, _ => decodeDp3 instr

end DataProcessing

section LoadStore

variable (instr : BitVec 32)

def rt : Nat := bits instr 4 0

def decodeLdrLiteral : Except EmuError (Instruction V) :=
  let opc := bits instr 31 30
  let offset := signExtend (bits instr 23 5) 19 * 4
  if bit instr 26 = 1 then
    match opc with
    | 0b00 => .ok (.fpLdrLiteral (rt instr) offset .w)
    | 0b01 => .ok (.fpLdrLiteral (rt instr) offset .x)
    | 0b10 => .ok (.fpLdrLiteral (rt instr) offset .q)
    | _ => unknown instr
  else if 0b01 < opc then unknown instr
  else .ok (.ldrLiteral (decide (opc = 0b01)) (rt instr) offset)

def pairMode : Nat → IndexMode
  | 0b00 => .signedOffset
  | 0b10 => .signedOffset
  | 0b01 => .postIndex
  | _ => .preIndex

def decodeLdstPair : Except EmuError (Instruction V) :=
  let opc := bits instr 31 30
  let modeBits := bits instr 24 23
  let mode := pairMode modeBits
  let noAllocate := decide (modeBits = 0b00)
  let load := decide (bit instr 22 = 1)
  let op := if load then LdStPairOp.ldp else .stp
  let imm7 := signExtend (bits instr 21 15) 7
  let rt2 := bits instr 14 10
  if bit instr 26 = 1 then
    let pair (size : MemSize) : Except EmuError (Instruction V) :=
      .ok (.fpLdStPair op size (rt instr) rt2 (rn instr) (imm7 * BitVec.ofNat 64 size.bytes)
        mode noAllocate)
    match opc with
    | 0b00 => pair .w
    | 0b01 => pair .x
    | 0b10 => pair .q
    | _ => unknown instr
  else if noAllocate then unknown instr
  else
    match opc, load with
    | 0b00, _ => .ok (.ldStPair op false (rt instr) rt2 (rn instr) (imm7 * 4) mode)
    | 0b01, true => .ok (.ldStPair .ldpsw true (rt instr) rt2 (rn instr) (imm7 * 4) mode)
    | 0b10, _ => .ok (.ldStPair op true (rt instr) rt2 (rn instr) (imm7 * 8) mode)
    | _, _ => unknown instr

/-- The keyword of an `option` field, as the shared table spells it. -/
def ldstExtend (option : Nat) : Option ExtendType :=
  match (ldstExtends.find? fun row => row.2.1 = option).map Prod.fst with
  | some ['u', 'x', 't', 'w'] => some .uxtw
  | some ['l', 's', 'l'] => some .lsl
  | some ['s', 'x', 't', 'w'] => some .sxtw
  | some ['s', 'x', 't', 'x'] => some .sxtx
  | _ => none

def decodeLdstRegOffset (size : MemSize) : Except EmuError LdStOffset :=
  match ldstExtend (bits instr 15 13) with
  | none => .error (.unknownInstruction instr)
  | some extend =>
      .ok (.register (rm instr) extend (if bit instr 12 = 1 then some size.log2 else none))

/-- The mode of the signed nine-bit offset family. -/
def imm9Mode : Nat → Option IndexMode
  | 0b00 => some .signedOffset
  | 0b01 => some .postIndex
  | 0b11 => some .preIndex
  | _ => none

def scaledOffset (size : MemSize) : LdStOffset :=
  .immediate (BitVec.ofNat 64 (bits instr 21 10 * size.bytes))

/-- The signed nine-bit offset. -/
def imm9Offset : LdStOffset := .immediate (signExtend (bits instr 20 12) 9)

def decodeFpLdstSingle (sizeField : Nat) : Except EmuError (Instruction V) :=
  let opcInner := bits instr 23 22
  let load := decide (opcInner % 2 = 1)
  let wide := opcInner / 2 = 1
  if wide ∧ sizeField ≠ 0b00 then unknown instr
  else
    let size := if wide then MemSize.q else .fromSizeField sizeField
    match bits instr 25 24 with
    | 0b01 => .ok (.fpLdSt load (rt instr) (rn instr) (scaledOffset instr size) size
        .signedOffset false)
    | 0b00 =>
        if bit instr 21 = 1 then
          if bits instr 11 10 ≠ 0b10 then unknown instr
          else do
            let offset ← decodeLdstRegOffset instr size
            return .fpLdSt load (rt instr) (rn instr) offset size .signedOffset false
        else
          match imm9Mode (bits instr 11 10) with
          | none => unknown instr
          | some mode => .ok (.fpLdSt load (rt instr) (rn instr) (imm9Offset instr) size mode
              (decide (bits instr 11 10 = 0b00)))
    | _ => unknown instr

/-- The load or store of an `opc` field; 10 and 11 are the sign-extending loads, which
have no 64-bit size. -/
def decodeLdstOp (opc : Nat) (size : MemSize) (offset : LdStOffset) (mode : IndexMode) :
    Except EmuError (Instruction V) :=
  match opc with
  | 0b00 => .ok (.ldSt .str (rt instr) (rn instr) offset size mode)
  | 0b01 => .ok (.ldSt .ldr (rt instr) (rn instr) offset size mode)
  | _ =>
      if size = .x then unknown instr
      else .ok (.ldrSignExtended (rt instr) (rn instr) offset size mode (decide (opc = 0b10)))

def decodeLdstSingle : Except EmuError (Instruction V) :=
  let sizeField := bits instr 31 30
  if bit instr 26 = 1 then decodeFpLdstSingle instr sizeField
  else
    let size := MemSize.fromSizeField sizeField
    let opc := bits instr 23 22
    if bits instr 25 24 = 0b01 ∧ bits instr 29 28 = 0b11 then
      decodeLdstOp instr opc size (scaledOffset instr size) .signedOffset
    else if bits instr 29 28 = 0b11 ∧ bit instr 24 = 0 then
      if bits instr 11 10 = 0b10 then do
        let offset ← decodeLdstRegOffset instr size
        decodeLdstOp instr opc size offset .signedOffset
      else
        match imm9Mode (bits instr 11 10) with
        | none => unknown instr
        | some mode => decodeLdstOp instr opc size (imm9Offset instr) mode
    else unknown instr

def decodeLdstGroup (vec : VectorDecoder V) : Except EmuError (Instruction V) :=
  if instr &&& 0x3B000000 = 0x18000000 then decodeLdrLiteral instr
  else if instr &&& 0x3A000000 = 0x28000000 then decodeLdstPair instr
  else if instr &&& 0xBE000000 = 0x0C000000 then
    match vec.decodeSimdLdstStructure instr with
    | some v => .ok (.vector v)
    | none => unknown instr
  else decodeLdstSingle instr

end LoadStore

def decodeBranchGroup (instr : BitVec 32) : Except EmuError (Instruction V) :=
  if instr &&& 0x7E000000 = 0x34000000 then
    .ok (.compareBranch (sf instr) (rt instr) (flag instr 24)
      (signExtend (bits instr 23 5) 19 * 4))
  else if instr &&& 0x7E000000 = 0x36000000 then
    .ok (.testBranch (rt instr) (bit instr 31 * 32 + bits instr 23 19) (flag instr 24)
      (signExtend (bits instr 18 5) 14 * 4))
  else if instr &&& 0xFF000010 = 0x54000000 then
    .ok (.bCond (.fromBits (bits instr 3 0)) (signExtend (bits instr 23 5) 19 * 4))
  else if instr &&& 0x7C000000 = 0x14000000 then
    .ok (.brImm (flag instr 31) (signExtend (bits instr 25 0) 26 * 4))
  else if instr &&& 0xFE1FFC1F = 0xD61F0000 then
    match bits instr 24 21 with
    | 0b0000 => .ok (.brReg .br (rn instr))
    | 0b0001 => .ok (.brReg .blr (rn instr))
    | 0b0010 => .ok (.brReg .ret (rn instr))
    | _ => unknown instr
  else unknown instr

end Decode

open Decode in
/-- Decode an instruction word. -/
def decode {V : Type} (vec : VectorDecoder V) (instr : BitVec 32) :
    Except EmuError (Instruction V) :=
  if instr = 0xD503201F then .ok .nop
  else if instr &&& 0xFFE0001F = 0xD4000001 then .ok (.svc (bits instr 20 5))
  else if instr &&& 0xFFE0001F = 0xD4200000 then .ok (.brk (bits instr 20 5))
  else
    match bits instr 28 25 with
    | 0b1000 | 0b1001 => decodeDpImmGroup instr
    | 0b1010 | 0b1011 => decodeBranchGroup instr
    | 0b0100 | 0b0110 | 0b1100 | 0b1110 => decodeLdstGroup instr vec
    | 0b0101 | 0b1101 => decodeDpRegGroup instr
    | 0b0111 | 0b1111 => (vec.decodeFpGroup instr).map .vector
    | _ => unknown instr

end Playground
