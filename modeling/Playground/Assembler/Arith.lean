/-
Integer arithmetic and bitwise encoders.  A word is its fields or-ed together, each
shifted to its place, as the source writes them.
-/
import Playground.Assembler.Vector

namespace Playground

namespace Assembler

/-- An instruction word from its fields. -/
abbrev word (fields : List (Nat × Nat)) : BitVec 32 := Fields.word 32 fields

/-- An operand of a line; a missing one reads as empty. -/
def operand (ops : List (List Char)) (i : Nat) : List Char := ops.getD i []

/-- The register 31 that goes with a width. -/
def zeroRegister (sf : Bool) : List Char := if sf then ['X', 'Z', 'R'] else ['W', 'Z', 'R']

def regSize (sf : Bool) : Nat := if sf then 64 else 32

/-- Whether an operand names the stack pointer. -/
def isSpName (op : List Char) : Bool :=
  let t := lowerAsciiChars (trim op)
  decide (t = ['s', 'p']) || decide (t = ['w', 's', 'p'])

/-- Refuse `sp` where no encoding has room for it. -/
def rejectSpOperands (ops : List (List Char)) (line : Nat) (mnemonic : String) :
    Except EmuError Unit :=
  match ops.findIdx? isSpName with
  | some i => asmErr line (mnemonic ++ " cannot take sp (operand " ++ toString (i + 1) ++
      "); copy it out first with `mov xN, sp`")
  | none => .ok ()

def internalAssemblerBug : String :=
  "the playground hit an internal assembler error on this line. This is a bug: press " ++
  "'copy diagnostic bundle' and open an issue with what it copies"

section Logical

/-- `AND/ORR/EOR/ANDS Rd, Rn, #imm`, for a value that is a bitmask. -/
def encodeLogImmFields (rn rd : Nat) (value : Word) (sf : Bool) (opc line : Nat) :
    Except EmuError (BitVec 32) :=
  let value := if sf then value else value &&& 0xFFFFFFFF
  match Decode.encodeBitmaskImm value sf with
  | none => asmErr line ("0x" ++ hexText value.toNat ++ " is not a valid bitmask immediate " ++
      "(AND/ORR/EOR take only repeating-bit patterns; load the constant with mov/ldr = first)")
  | some (n, immr, imms) =>
      .ok (word [(sf.toNat, 31), (opc, 29), (0b100100, 23), (n.toNat, 22), (immr, 16),
        (imms, 10), (rn, 5), (rd, 0)])

def encodeLogReg (ops : List (List Char)) (opc : Nat) (n : Bool) (line : Nat) :
    Except EmuError (BitVec 32) :=
  if ops.length ≠ 3 ∧ ops.length ≠ 4 then
    asmErr line ("this logical op takes 3 operands, or 4 with a shift modifier (and x0, x1, " ++
      "x2, lsr #4)")
  else do
    rejectSpOperands ops line "a logical op"
    let (rd, sf) ← parseRegister (operand ops 0) line
    let (rn, _) ← parseRegister (operand ops 1) line
    let (rm, _) ← parseRegister (operand ops 2) line
    let (shiftBits, shiftAmt) ← if ops.length = 4 then
        parseShiftModifier (operand ops 3) (regSize sf) true line
      else pure (0, 0)
    return word [(sf.toNat, 31), (opc, 29), (0b01010, 24), (shiftBits, 22), (n.toNat, 21),
      (rm, 16), (shiftAmt, 10), (rn, 5), (rd, 0)]

def encodeBic (vec : VectorEncoders) (ops : List (List Char)) (line : Nat) :
    Except EmuError (BitVec 32) :=
  if ops.head?.any isVecOperand then vec.encodeVectorLogical ops .and line
  else if ops.length ≠ 3 ∧ ops.length ≠ 4 then
    asmErr line "BIC takes 3 operands, or 4 with a shift modifier (bic x0, x1, x2, lsl #1)"
  else if opensImmediate (trim (operand ops 2)) then
    asmErr line "BIC takes a register, not an immediate; use AND with the inverted mask"
  else encodeLogReg ops 0b00 true line

def encodeMvn (ops : List (List Char)) (line : Nat) : Except EmuError (BitVec 32) :=
  if ops.length ≠ 2 ∧ ops.length ≠ 3 then
    asmErr line "MVN takes 2 operands, or 3 with a shift modifier (mvn x0, x1, lsl #2)"
  else do
    let (_, sf) ← parseRegister (operand ops 0) line
    encodeLogReg (operand ops 0 :: zeroRegister sf :: ops.drop 1) 0b01 true line

/-- The register or the bitmask form, by the third operand. -/
def encodeLogDispatch (ops : List (List Char)) (opc line : Nat) : Except EmuError (BitVec 32) :=
  let op3 := trim (operand ops 2)
  if ops.length = 3 ∧ opensImmediate op3 then do
    let (rd, sf) ← parseRegister (operand ops 0) line
    let (rn, _) ← parseRegister (operand ops 1) line
    let value ← parseImmediate op3 line
    encodeLogImmFields rn rd value sf opc line
  else encodeLogReg ops opc false line

def encodeOrr (vec : VectorEncoders) (ops : List (List Char)) (line : Nat) :
    Except EmuError (BitVec 32) :=
  if ops.head?.any isVecOperand then vec.encodeVectorLogical ops .orr line
  else encodeLogDispatch ops 0b01 line

def encodeTst (ops : List (List Char)) (line : Nat) : Except EmuError (BitVec 32) :=
  if ops.length ≠ 2 ∧ ops.length ≠ 3 then
    asmErr line "TST takes 2 operands, or 3 with a shift modifier (tst x0, x1, lsl #2)"
  else do
    let (rn, sf) ← parseRegister (operand ops 0) line
    let op2 := trim (operand ops 1)
    if ops.length = 2 ∧ opensImmediate op2 then do
      let value ← parseImmediate op2 line
      encodeLogImmFields rn 31 value sf 0b11 line
    else encodeLogReg (zeroRegister sf :: ops) 0b11 false line

end Logical

section AddSub

/-- The `lsl #12` an add or subtract immediate may carry. -/
def parseLsl12 (op : List Char) (line : Nat) : Except EmuError Unit :=
  let t := trim op
  if lowerAsciiChars (t.take 3) ≠ ['l', 's', 'l'] then
    asmErr line "an add/sub immediate takes only `lsl #12`"
  else do
    let amt ← parseImmediate (trim ((trim (t.drop 3)).dropWhile (· = '#'))) line
    if amt ≠ 12 then asmErr line "an add/sub immediate shift must be exactly `lsl #12`"
    else return ()

/-- The twelve-bit field of a magnitude, and whether it is shifted left by twelve. -/
def addSubImmediate (magnitude : Nat) (explicitLsl12 : Bool) (line : Nat) :
    Except EmuError (Nat × Bool) :=
  if explicitLsl12 then
    if 4095 < magnitude then asmErr line "with lsl #12 the immediate must be 0-4095"
    else .ok (magnitude, true)
  else if magnitude ≤ 4095 then .ok (magnitude, false)
  else if magnitude % 4096 = 0 ∧ magnitude / 4096 ≤ 4095 then .ok (magnitude / 4096, true)
  else asmErr line ("immediate out of range: 0-4095, or a multiple of 4096 up to 16773120 " ++
    "(which encodes as lsl #12)")

/-- The immediate form.  A negative immediate is the opposite operation. -/
def encodeDpImm (ops : List (List Char)) (op3 : List Char) (opBit sBit rd rn : Nat) (sf : Bool)
    (line : Nat) : Except EmuError (BitVec 32) := do
  let raw ← parseImmediate op3 line
  if ops.length = 4 then
    parseLsl12 (operand ops 3) line
  let opBit := if raw.toInt < 0 then 1 - opBit else opBit
  let (imm12, shift12) ← addSubImmediate raw.toInt.natAbs (decide (ops.length = 4)) line
  return word [(sf.toNat, 31), (opBit, 30), (sBit, 29), (0b10001, 24), (shift12.toNat, 22),
    (imm12, 10), (rn, 5), (rd, 0)]

/-- The extended-register word. -/
def dpExtWord (sf : Bool) (opBit sBit rm option amount rn rd : Nat) : BitVec 32 :=
  word [(sf.toNat, 31), (opBit, 30), (sBit, 29), (0b01011, 24), (1, 21), (rm, 16),
    (option, 13), (amount, 10), (rn, 5), (rd, 0)]

def extendAmount (text : List Char) (line : Nat) : Except EmuError Nat := do
  let amount ← if (trim text).isEmpty then pure 0 else parseImmediate (trim text) line
  if amount.toInt < 0 ∨ 4 < amount.toInt then
    asmErr line ("an extended-register shift is 0 to 4, got " ++ i64Text amount)
  else return amount.toNat

/-- The register forms: SP goes to the extended one, and what no form covers is
refused. -/
def encodeDpReg (ops : List (List Char)) (op3 : List Char) (opBit sBit rd rn : Nat) (sf : Bool)
    (shift : Nat × Nat) (extend : Option (Nat × List Char)) (line : Nat) :
    Except EmuError (BitVec 32) := do
  let (rm, _) ← parseRegister op3 line
  let rdIsSp := isSpName (operand ops 0)
  let rnIsSp := isSpName (operand ops 1)
  if isSpName op3 then
    asmErr line "sp cannot be the last operand here; copy it out first (mov xN, sp)"
  else if rdIsSp ∧ sBit = 1 then
    asmErr line ("the flag-setting form cannot write sp; drop the s (add/sub) or use another " ++
      "destination")
  else
    match extend with
    | some (option, amountText) => do
        let amount ← extendAmount amountText line
        return dpExtWord sf opBit sBit rm option amount rn rd
    | none =>
        if rdIsSp ∨ rnIsSp then
          if ops.length = 4 then
            asmErr line ("a shift modifier cannot be combined with sp; compute the shift into " ++
              "a scratch register first")
          else return dpExtWord sf opBit sBit rm (if sf then 0b011 else 0b010) 0 rn rd
        else return word [(sf.toNat, 31), (opBit, 30), (sBit, 29), (0b01011, 24), (shift.1, 22),
          (rm, 16), (shift.2, 10), (rn, 5), (rd, 0)]

/-- ADD, ADDS, SUB and SUBS in every form. -/
def encodeDp (ops : List (List Char)) (opBit sBit line : Nat) : Except EmuError (BitVec 32) :=
  if ops.length ≠ 3 ∧ ops.length ≠ 4 then
    asmErr line ("ADD/SUB takes 3 operands, or 4 with a shift modifier (add x0, x1, x2, " ++
      "lsl #3)")
  else do
    let (rd, sf) ← parseRegister (operand ops 0) line
    let (rn, _) ← parseRegister (operand ops 1) line
    let op3 := trim (operand ops 2)
    if opensImmediate op3 then encodeDpImm ops op3 opBit sBit rd rn sf line
    else do
      let extend := if ops.length = 4 then parseExtendModifier (operand ops 3) else none
      let shift ← if ops.length = 4 ∧ extend.isNone then
          parseShiftModifier (operand ops 3) (regSize sf) false line
        else pure (0, 0)
      encodeDpReg ops op3 opBit sBit rd rn sf shift extend line

def carryName (sub setFlags : Bool) : String :=
  match sub, setFlags with
  | false, false => "ADC"
  | false, true => "ADCS"
  | true, false => "SBC"
  | true, true => "SBCS"

def encodeCarry (ops : List (List Char)) (sub setFlags : Bool) (line : Nat) :
    Except EmuError (BitVec 32) :=
  let name := carryName sub setFlags
  let op3 := trim (operand ops 2)
  if ops.length ≠ 3 then asmErr line (name ++ " requires 3 operands: Rd, Rn, Rm")
  else if opensImmediate op3 then
    asmErr line (name ++ " takes three registers; there is no immediate form")
  else do
    rejectSpOperands ops line name
    let (rd, sf) ← parseRegister (operand ops 0) line
    let (rn, rnSf) ← parseRegister (operand ops 1) line
    let (rm, rmSf) ← parseRegister op3 line
    if rnSf ≠ sf ∨ rmSf ≠ sf then
      asmErr line (name ++ " needs all three registers the same width (all " ++
        (if sf then "X" else "W") ++ " registers here)")
    else return word [(sf.toNat, 31), (sub.toNat, 30), (setFlags.toNat, 29), (0b11010000, 21),
      (rm, 16), (rn, 5), (rd, 0)]

/-- `cmp` and `cmn` of a negative immediate flip to each other. -/
def flippedImmediate (op : List Char) (line : Nat) : Option (List Char) :=
  if opensImmediate op then
    match parseImmediate op line with
    | .ok v => if v.toInt < 0 ∧ v ≠ BitVec.intMin 64 then some (i64Text (-v)).toList else none
    | .error _ => none
  else none

def encodeCmp (ops : List (List Char)) (opBit line : Nat) : Except EmuError (BitVec 32) :=
  if ops.length ≠ 2 ∧ ops.length ≠ 3 then
    asmErr line "CMP/CMN takes 2 operands, or 3 with a shift modifier (cmp x1, x2, lsl #2)"
  else do
    let (_, sf) ← parseRegister (operand ops 0) line
    let zr := zeroRegister sf
    if ops.length = 3 then encodeDp (zr :: ops) opBit 1 line
    else
      match flippedImmediate (trim (operand ops 1)) line with
      | some flipped => encodeDp [zr, operand ops 0, flipped] (1 - opBit) 1 line
      | none => encodeDp (zr :: ops) opBit 1 line

def encodeNeg (ops : List (List Char)) (setFlags : Bool) (line : Nat) :
    Except EmuError (BitVec 32) :=
  if ops.length ≠ 2 ∧ ops.length ≠ 3 then
    asmErr line "NEG/NEGS takes 2 operands, or 3 with a shift (neg w0, w1, lsl 2)"
  else do
    let (_, sf) ← parseRegister (operand ops 0) line
    encodeDp (operand ops 0 :: zeroRegister sf :: ops.drop 1) 1 setFlags.toNat line

end AddSub

section Move

def moveWideWord (sf : Bool) (opc hw imm16 rd : Nat) : BitVec 32 :=
  word [(sf.toNat, 31), (opc, 29), (0b100101, 23), (hw, 21), (imm16, 5), (rd, 0)]

def moveWideShift (op : List Char) (line : Nat) : Except EmuError Nat :=
  match stripStart ['L', 'S', 'L'] (toUppercase (trim op)) with
  | none => asmErr line ("expected `lsl #0|#16|#32|#48` as the third operand of " ++
      "MOVZ/MOVK/MOVN, got `" ++ String.ofList (trim op) ++ "`")
  | some rest => do
      let amt ← parseImmediate (trim rest) line
      if amt = 0 then return 0
      else if amt = 16 then return 1
      else if amt = 32 then return 2
      else if amt = 48 then return 3
      else asmErr line "MOVZ/MOVK shift must be 0, 16, 32, or 48"

def encodeMovzk (ops : List (List Char)) (opc line : Nat) : Except EmuError (BitVec 32) :=
  if ops.length < 2 then asmErr line "MOVZ/MOVK/MOVN requires at least 2 operands"
  else do
    let (rd, sf) ← parseRegister (operand ops 0) line
    let imm ← parseImmediate (operand ops 1) line
    if 0xFFFF < imm.toNat then asmErr line "immediate exceeds 16 bits"
    else if 3 < ops.length then asmErr line "MOVZ/MOVK/MOVN takes at most 3 operands"
    else do
      let hw ← match ops[2]? with
        | some shift => moveWideShift shift line
        | none => pure 0
      return moveWideWord sf opc hw imm.toNat rd

/-- The first halfword outside which a value is zero, with its sixteen bits. -/
def singleHalfword (u : Word) (limit : Nat) : Option (Nat × Nat) :=
  (List.range limit).findSome? fun hw =>
    if u &&& ~~~((0xFFFF : Word) <<< (hw * 16)) = 0 then
      some (hw, (u >>> (hw * 16)).toNat % 65536)
    else none

/-- The bits the register ends up holding, when MOVZ may give them. -/
def movPattern (imm : Word) (sf : Bool) : Option Word :=
  if sf ∨ 0 < imm.toInt then some imm
  else if -2 ^ 31 ≤ imm.toInt then some (imm &&& 0xFFFFFFFF)
  else none

/-- `mov` of an immediate: MOVZ, MOVN or ORR, whichever holds it first. -/
def encodeMovImm (op1 op2 : List Char) (rd : Nat) (sf : Bool) (line : Nat) :
    Except EmuError (BitVec 32) := do
  let imm ← parseImmediate op2 line
  if imm.toNat ≤ 0xFFFF then encodeMovzk [op1, op2] 0b10 line
  else
    let limit := if sf then 4 else 2
    match (movPattern imm sf).bind fun u => singleHalfword u limit with
    | some (hw, val) => return moveWideWord sf 0b10 hw val rd
    | none =>
        let widthMask : Word := if sf then BitVec.allOnes 64 else 0xFFFFFFFF
        match singleHalfword (~~~imm &&& widthMask) limit with
        | some (hw, val) => return moveWideWord sf 0b00 hw val rd
        | none =>
            match encodeLogImmFields 31 rd imm sf 0b01 line with
            | .ok w => return w
            | .error _ => asmErr line "immediate out of range for MOV (needs MOVZ+MOVK)"

def encodeMov (vec : VectorEncoders) (ops : List (List Char)) (line : Nat) :
    Except EmuError (BitVec 32) :=
  if ops.length ≠ 2 then asmErr line "MOV requires 2 operands"
  else if ops.any isVecOperand then vec.encodeSimdMov ops line
  else do
    let (rd, sf) ← parseRegister (operand ops 0) line
    let op2 := trim (operand ops 1)
    let isSp (op : List Char) : Bool := decide (lowerAsciiChars op = ['s', 'p'])
    if opensImmediate op2 then encodeMovImm (operand ops 0) op2 rd sf line
    else if isSp (trim (operand ops 0)) ∨ isSp op2 then
      encodeDp [operand ops 0, op2, ['#', '0']] 0 0 line
    else do
      let (rm, _) ← parseRegister op2 line
      return word [(sf.toNat, 31), (0b01, 29), (0b01010, 24), (rm, 16), (0b11111, 5), (rd, 0)]

end Move

section Multiply

/-- MUL is MADD with the zero register. -/
def encodeMulDiv (ops : List (List Char)) (variant line : Nat) : Except EmuError (BitVec 32) :=
  if ops.length ≠ 3 then asmErr line "MUL/UDIV/SDIV requires 3 operands"
  else do
    rejectSpOperands ops line "MUL/UDIV/SDIV"
    let (rd, sf) ← parseRegister (operand ops 0) line
    let (rn, _) ← parseRegister (operand ops 1) line
    let (rm, _) ← parseRegister (operand ops 2) line
    match variant with
    | 0 => return word [(sf.toNat, 31), (0b0011011000, 21), (rm, 16), (0b11111, 10), (rn, 5),
        (rd, 0)]
    | 1 => return word [(sf.toNat, 31), (0b0011010110, 21), (rm, 16), (0b000010, 10), (rn, 5),
        (rd, 0)]
    | 2 => return word [(sf.toNat, 31), (0b0011010110, 21), (rm, 16), (0b000011, 10), (rn, 5),
        (rd, 0)]
    | _ => asmErr line internalAssemblerBug

def encodeMulAccumulate (ops : List (List Char)) (subtract : Bool) (line : Nat) :
    Except EmuError (BitVec 32) :=
  if ops.length ≠ 4 then asmErr line "MADD/MSUB requires 4 operands"
  else do
    rejectSpOperands ops line "MADD/MSUB"
    let (rd, sf) ← parseRegister (operand ops 0) line
    let (rn, _) ← parseRegister (operand ops 1) line
    let (rm, _) ← parseRegister (operand ops 2) line
    let (ra, _) ← parseRegister (operand ops 3) line
    return word [(sf.toNat, 31), (0b0011011000, 21), (rm, 16), (subtract.toNat, 15), (ra, 10),
      (rn, 5), (rd, 0)]

def encodeMneg (ops : List (List Char)) (line : Nat) : Except EmuError (BitVec 32) :=
  if ops.length ≠ 3 then asmErr line "MNEG requires 3 operands"
  else do
    rejectSpOperands ops line "MNEG"
    let (_, sf) ← parseRegister (operand ops 0) line
    encodeMulAccumulate (ops ++ [zeroRegister sf]) true line

/-- The widening and high-half multiplies, with or without an accumulator. -/
def encodeMulWide (ops : List (List Char)) (op31 : Nat) (widening : Bool) (o0 : Nat)
    (accumulates : Bool) (line : Nat) : Except EmuError (BitVec 32) :=
  let names := if accumulates then "SMADDL/SMSUBL/UMADDL/UMSUBL" else "SMULL/UMULL/SMULH/UMULH"
  if ops.length ≠ (if accumulates then 4 else 3) then
    asmErr line (if accumulates then names ++ " require 4 operands: Xd, Wn, Wm, Xa"
      else names ++ " require 3 operands")
  else do
    rejectSpOperands ops line names
    let (rd, rdX) ← parseRegister (operand ops 0) line
    let (rn, rnX) ← parseRegister (operand ops 1) line
    let (rm, rmX) ← parseRegister (operand ops 2) line
    if rdX = false then
      asmErr line "the destination must be an X register (the product is 64-bit)"
    else if widening = true ∧ (rnX = true ∨ rmX = true) then
      asmErr line "SMULL/UMULL take W source registers (32 x 32 -> 64)"
    else if widening = false ∧ (rnX = false ∨ rmX = false) then
      asmErr line "SMULH/UMULH take X source registers"
    else do
      let ra ← if accumulates then do
          let (ra, raX) ← parseRegister (operand ops 3) line
          if raX = false then
            asmErr line "the accumulator must be an X register (the product is 64-bit)"
          else pure ra
        else pure 31
      return word [(1, 31), (0b11011, 24), (op31, 21), (rm, 16), (o0, 15), (ra, 10), (rn, 5),
        (rd, 0)]

def encodeMnegWide (ops : List (List Char)) (op31 line : Nat) : Except EmuError (BitVec 32) :=
  if ops.length ≠ 3 then asmErr line "SMNEGL/UMNEGL require 3 operands: Xd, Wn, Wm"
  else encodeMulWide (ops ++ [['X', 'Z', 'R']]) op31 true 1 true line

end Multiply

section Conditional

def encodeCondCompare (ops : List (List Char)) (opBit : Nat) (name : String) (line : Nat) :
    Except EmuError (BitVec 32) :=
  if ops.length ≠ 4 then
    asmErr line (name ++ " requires 4 operands: Rn, Rm or #imm5, #nzcv, cond")
  else do
    let (rn, sf) ← parseRegister (operand ops 0) line
    let nzcv ← parseImmediate (operand ops 2) line
    if 15 < nzcv.toNat then
      asmErr line (name ++ " nzcv must be 0 to 15 (the four flag bits, N Z C V)")
    else do
      let cond ← parseConditionAllowingNv (operand ops 3) line
      let op2 := trim (operand ops 1)
      let (field, immFlag) ← if opensImmediate op2 then do
          let imm ← parseImmediate op2 line
          if 31 < imm.toNat then
            asmErr line (name ++ " takes an unsigned 5-bit immediate (0 to 31)")
          else pure (imm.toNat, 1)
        else do
          let (rm, _) ← parseRegister op2 line
          pure (rm, 0)
      return word [(sf.toNat, 31), (opBit, 30), (1, 29), (0b11010010, 21), (field, 16),
        (cond, 12), (immFlag, 11), (rn, 5), (nzcv.toNat, 0)]

def encodeCondSel (ops : List (List Char)) (opBit op2 line : Nat) :
    Except EmuError (BitVec 32) :=
  if ops.length ≠ 4 then asmErr line "CSEL/CSINC/CSINV/CSNEG requires 4 operands"
  else do
    let (rd, sf) ← parseRegister (operand ops 0) line
    let (rn, _) ← parseRegister (operand ops 1) line
    let (rm, _) ← parseRegister (operand ops 2) line
    let cond ← parseCondition (operand ops 3) line
    return word [(sf.toNat, 31), (opBit, 30), (0b0011010100, 21), (rm, 16), (cond, 12),
      (op2, 10), (rn, 5), (rd, 0)]

/-- The inverse of a written condition; AL and NV have none. -/
def invertConditionBits (spelled : List Char) (name hint : String) (line : Nat) :
    Except EmuError Nat :=
  let upper := toUppercase (trim spelled)
  if upper = ['A', 'L'] ∨ upper = ['N', 'V'] then
    asmErr line (name ++ " cannot use the AL or NV condition (there is nothing to invert" ++
      hint ++ ")")
  else do
    let bits ← parseCondition spelled line
    return (Condition.fromBits bits).invert.toBits

/-- The `cset` family: both sources are one register and the condition is inverted. -/
def encodeCondSelAlias (ops : List (List Char)) (name : String) (opBit op2 : Nat)
    (duplicateRn : Bool) (line : Nat) : Except EmuError (BitVec 32) :=
  let want := if duplicateRn then 3 else 2
  if ops.length ≠ want then asmErr line (name ++ " requires " ++ toString want ++ " operands")
  else do
    let (rd, sf) ← parseRegister (operand ops 0) line
    let rn ← if duplicateRn then do
        let (rn, _) ← parseRegister (operand ops 1) line
        pure rn
      else pure 31
    let hint := if name = "CSET" then "; use `mov Xd, 1`" else ""
    let cond ← invertConditionBits (operand ops (if duplicateRn then 2 else 1)) name hint line
    return word [(sf.toNat, 31), (opBit, 30), (0b0011010100, 21), (rn, 16), (cond, 12),
      (op2, 10), (rn, 5), (rd, 0)]

end Conditional

section Bitfield

/-- How an alias lays its field out. -/
inductive BitfieldForm
  | extract | insert
deriving DecidableEq, Repr

def bitfieldWord (sf : Bool) (opc immr imms rn rd : Nat) : BitVec 32 :=
  word [(sf.toNat, 31), (opc, 29), (0b100110, 23), (sf.toNat, 22), (immr, 16), (imms, 10),
    (rn, 5), (rd, 0)]

/-- One bitfield alias.  The sum of position and width is an `i64` and wraps. -/
def encodeBitfieldAlias (ops : List (List Char)) (name : String) (opc : Nat)
    (form : BitfieldForm) (line : Nat) : Except EmuError (BitVec 32) :=
  if ops.length ≠ 4 then asmErr line (name ++ " requires 4 operands: Rd, Rn, #lsb, #width")
  else do
    let (rd, sf) ← parseRegister (operand ops 0) line
    let (rn, _) ← parseRegister (operand ops 1) line
    let lsb ← parseImmediate (operand ops 2) line
    let width ← parseImmediate (operand ops 3) line
    if width.toInt < 1 then asmErr line (name ++ " width must be at least 1")
    else if lsb.toInt < 0 ∨ (regSize sf : Int) ≤ lsb.toInt then
      asmErr line (name ++ " lsb is out of range for the register width")
    else if (regSize sf : Int) < (lsb + width).toInt then
      asmErr line (name ++ " field runs past the top of the register")
    else
      let (immr, imms) := match form with
        | .extract => (lsb.toNat, (lsb + width - 1).toNat % 2 ^ 32)
        | .insert => ((regSize sf - lsb.toNat) % regSize sf, (width - 1).toNat % 2 ^ 32)
      return bitfieldWord sf opc immr imms rn rd

/-- The rotate word, an extract from a pair of registers. -/
def extrWord (sf : Bool) (rm lsb rn rd : Nat) : BitVec 32 :=
  word [(sf.toNat, 31), (0b00100111, 23), (sf.toNat, 22), (rm, 16), (lsb, 10), (rn, 5), (rd, 0)]

def varShiftWord (sf : Bool) (rm opcode rn rd : Nat) : BitVec 32 :=
  word [(sf.toNat, 31), (0b0011010110, 21), (rm, 16), (opcode, 10), (rn, 5), (rd, 0)]

def amountInside (amount : Word) (sf : Bool) : Bool :=
  decide (0 ≤ amount.toInt ∧ amount.toInt < regSize sf)

def encodeRor (ops : List (List Char)) (line : Nat) : Except EmuError (BitVec 32) :=
  if ops.length ≠ 3 then asmErr line "ROR requires 3 operands: Rd, Rn, #shift or Rm"
  else do
    rejectSpOperands ops line "ROR"
    let (rd, sf) ← parseRegister (operand ops 0) line
    let (rn, _) ← parseRegister (operand ops 1) line
    let op3 := trim (operand ops 2)
    if opensAmount op3 then do
      let amount ← parseImmediate op3 line
      if amountInside amount sf then return extrWord sf rn amount.toNat rn rd
      else asmErr line (outOfRange "rotate" amount (regSize sf))
    else do
      let (rm, _) ← parseRegister op3 line
      return varShiftWord sf rm 0b001011 rn rd

def encodeExtr (ops : List (List Char)) (line : Nat) : Except EmuError (BitVec 32) :=
  if ops.length ≠ 4 then asmErr line "EXTR requires 4 operands: Rd, Rn, Rm, #lsb"
  else do
    rejectSpOperands ops line "EXTR"
    let (rd, sf) ← parseRegister (operand ops 0) line
    let (rn, sfN) ← parseRegister (operand ops 1) line
    let (rm, sfM) ← parseRegister (operand ops 2) line
    if sfN ≠ sf ∨ sfM ≠ sf then asmErr line "EXTR takes three registers of the same width"
    else do
      let lsb ← parseImmediate (operand ops 3) line
      if amountInside lsb sf then return extrWord sf rm lsb.toNat rn rd
      else asmErr line ("EXTR takes an lsb from 0 to " ++ toString (regSize sf - 1) ++
        " here, not " ++ i64Text lsb)

/-- The bitfield a shift by an immediate is: opc, immr and imms. -/
def shiftFields (shiftType : ShiftType) (amt size : Nat) : Option (Nat × Nat × Nat) :=
  match shiftType with
  | .lsl => some (0b10, (size - amt) % size, size - 1 - amt)
  | .lsr => some (0b10, amt, size - 1)
  | .asr => some (0b00, amt, size - 1)
  | .ror => none

def shiftOpcode : ShiftType → Option Nat
  | .lsl => some 0b001000
  | .lsr => some 0b001001
  | .asr => some 0b001010
  | .ror => none

def encodeShift (ops : List (List Char)) (shiftType : ShiftType) (line : Nat) :
    Except EmuError (BitVec 32) :=
  if ops.length ≠ 3 then asmErr line "shift requires 3 operands"
  else do
    rejectSpOperands ops line "a shift"
    let (rd, sf) ← parseRegister (operand ops 0) line
    let (rn, _) ← parseRegister (operand ops 1) line
    let op3 := trim (operand ops 2)
    if opensAmount op3 then do
      let raw ← parseImmediate op3 line
      if amountInside raw sf then
        match shiftFields shiftType raw.toNat (regSize sf) with
        | some (opc, immr, imms) => return bitfieldWord sf opc immr imms rn rd
        | none => asmErr line internalAssemblerBug
      else asmErr line (outOfRange "shift" raw (regSize sf))
    else do
      let (rm, _) ← parseRegister op3 line
      match shiftOpcode shiftType with
      | some opcode => return varShiftWord sf rm opcode rn rd
      | none => asmErr line internalAssemblerBug

def encodeExtend (ops : List (List Char)) (signed : Bool) (imms line : Nat) :
    Except EmuError (BitVec 32) :=
  if ops.length ≠ 2 then asmErr line "sign/zero extend requires 2 operands"
  else do
    let (rd, sf) ← parseRegister (operand ops 0) line
    let (rn, _) ← parseRegister (operand ops 1) line
    return bitfieldWord sf (if signed then 0b00 else 0b10) 0 imms rn rd

/-- UXTW is a 32-bit move. -/
def encodeExtendWord (ops : List (List Char)) (line : Nat) : Except EmuError (BitVec 32) :=
  if ops.length ≠ 2 then asmErr line "UXTW requires 2 operands: UXTW Xd, Wn"
  else do
    rejectSpOperands ops line "UXTW"
    let (rd, _) ← parseRegister (operand ops 0) line
    let (rn, rnX) ← parseRegister (operand ops 1) line
    if rnX then
      asmErr line ("UXTW takes a W source (uxtw xd, wn); from an X source the value is " ++
        "already 64 bits")
    else return word [(0x2A, 24), (rn, 16), (0b11111, 5), (rd, 0)]

def encodeDp1 (ops : List (List Char)) (name : String) (line : Nat) :
    Except EmuError (BitVec 32) :=
  if ops.length ≠ 2 then
    asmErr line (name ++ " requires 2 operands: " ++ name ++ " rd, rn")
  else do
    rejectSpOperands ops line name
    let (rd, sf) ← parseRegister (operand ops 0) line
    let (rn, rnSf) ← parseRegister (operand ops 1) line
    if sf ≠ rnSf then asmErr line (name ++ " needs both registers at the same width")
    else
      match dp1Ops.find? fun row =>
          decide (row.1 = name.toList) && row.2.2.1.all fun want => want == sf with
      | none => asmErr line (name ++ " has no " ++ (if sf then "X" else "W") ++
          " form: the 32-bit byte-swap is rev wd, wn")
      | some row => return word [(sf.toNat, 31), (0b1011010110, 21), (row.2.1, 10), (rn, 5),
          (rd, 0)]

end Bitfield

end Assembler

end Playground
