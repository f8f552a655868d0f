/-
Load and store encoders: single registers, general and SIMD&FP, and register pairs.
-/
import Playground.Assembler.Arith

namespace Playground

namespace Assembler

def lowBits (value : Word) (width : Nat) : Nat := value.toNat % 2 ^ width

/-- The reach of the signed nine-bit offset. -/
def fitsImm9 (offset : Word) : Bool := decide (-256 ≤ offset.toInt ∧ offset.toInt ≤ 255)

/-- Whether an offset has no scaled form. -/
def needsUnscaled (offset : Word) (scale : Nat) : Bool :=
  decide (offset.toInt < 0) || decide (offset.toNat % scale ≠ 0)

/-- The scaled offset field.  The quotient is cut to 32 bits before it is checked. -/
def scaledField (offset : Word) (scale : Nat) : Nat := offset.toNat / scale % 2 ^ 32

def writebackField : AddressMode → Nat
  | .preIndex => 0b11
  | _ => 0b01

/-- The scale bit of a written index amount: none, or the log of the access width. -/
def scaleBit (shift : Nat) (amount : Option Word) (message : Word → String) (line : Nat) :
    Except EmuError Nat :=
  match amount with
  | none => .ok 0
  | some a =>
      if a = BitVec.ofNat 64 shift then .ok 1
      else if a = 0 then .ok 0
      else asmErr line (message a)

section General

/-- The scaled word of a general register; `opc` is the load field. -/
def ldstScaledWord (size opc imm12 rn rt : Nat) : BitVec 32 :=
  word [(size, 30), (0b111001, 24), (opc, 22), (imm12, 10), (rn, 5), (rt, 0)]

/-- The nine-bit word; `idx` is 00, or a writeback mode's. -/
def ldstImm9Word (size opc imm9 idx rn rt : Nat) : BitVec 32 :=
  word [(size, 30), (0b111000, 24), (opc, 22), (imm9, 12), (idx, 10), (rn, 5), (rt, 0)]

def ldstRegWord (size opc rm option s rn rt : Nat) : BitVec 32 :=
  word [(size, 30), (0b111000, 24), (opc, 22), (1, 21), (rm, 16), (option, 13), (s, 12),
    (0b10, 10), (rn, 5), (rt, 0)]

def ldrsName : Nat → String
  | 0b00 => "ldrsb"
  | 0b01 => "ldrsh"
  | _ => "ldrsw"

/-- LDRSB, LDRSH and LDRSW; the destination's width is in `opc`. -/
def encodeLdrs (ops : List (List Char)) (size line : Nat) : Except EmuError (BitVec 32) :=
  if ops.length < 2 then asmErr line "LDRS* requires at least 2 operands"
  else do
    let (rt, targetIsX) ← parseRegister (operand ops 0) line
    if size = 0b10 ∧ targetIsX = false then
      asmErr line "LDRSW needs an X register as the destination"
    else
      let name := ldrsName size
      let opc := if targetIsX then 0b10 else 0b11
      match ← parseAddressingMode (trim (joinAddress (ops.drop 1))) line with
      | .immediate rn offset .unsigned =>
          let offsetVal := offset.getD 0
          let scale := (MemSize.fromSizeField size).bytes
          if size = 0b11 then
            asmErr line "internal: LDRS* never carries the 64-bit size field"
          else if needsUnscaled offsetVal scale then
            if fitsImm9 offsetVal then
              return ldstImm9Word size opc (lowBits offsetVal 9) 0 rn rt
            else asmErr line ("the " ++ name ++ " offset " ++ i64Text offsetVal ++
              " must be scaled and non-negative, or within [-256, 255] for the unscaled form")
          else if 4095 < scaledField offsetVal scale then
            asmErr line ("the " ++ name ++ " offset " ++ i64Text offsetVal ++
              " is out of range (0-" ++ toString (4095 * scale) ++ ")")
          else return ldstScaledWord size opc (scaledField offsetVal scale) rn rt
      | .immediate rn offset mode =>
          let offsetVal := offset.getD 0
          if fitsImm9 offsetVal then
            return ldstImm9Word size opc (lowBits offsetVal 9) (writebackField mode) rn rt
          else asmErr line "pre/post-index offset must be in [-256, 255]"
      | .regOffset rn rm option shiftAmount => do
          let s ← scaleBit size shiftAmount (fun a => name ++
            " can only scale its index register by #0 or #" ++ toString size ++ ", got #" ++
            i64Text a) line
          return ldstRegWord size opc rm option s rn rt

end General

section SimdFp

/-- The nine-bit word of a SIMD&FP register. -/
def fpImm9Word (size opc imm9 idx rn rt : Nat) : BitVec 32 :=
  word [(size, 30), (0b1111, 26), (opc, 22), (imm9, 12), (idx, 10), (rn, 5), (rt, 0)]

def fpScaledWord (size opc imm12 rn rt : Nat) : BitVec 32 :=
  word [(size, 30), (0b1111, 26), (0b01, 24), (opc, 22), (imm12, 10), (rn, 5), (rt, 0)]

def fpRegWord (size opc rm option s rn rt : Nat) : BitVec 32 :=
  word [(size, 30), (0b1111, 26), (opc, 22), (1, 21), (rm, 16), (option, 13), (s, 12),
    (0b10, 10), (rn, 5), (rt, 0)]

def encodeImm9 (offset : Word) (size opc idx rn rt line : Nat) : Except EmuError (BitVec 32) :=
  if fitsImm9 offset then .ok (fpImm9Word size opc (lowBits offset 9) idx rn rt)
  else asmErr line "FP offset must be in [-256, 255] for this form"

def fpMnemonic (load : Nat) (unscaled : Bool) : String :=
  match unscaled, load with
  | true, 1 => "LDUR"
  | true, _ => "STUR"
  | false, 1 => "LDR"
  | false, _ => "STR"

/-- LDR and STR of a SIMD&FP register; `unscaled` is LDUR and STUR. -/
def encodeLdstFp (ops : List (List Char)) (load : Nat) (unscaled : Bool) (line : Nat) :
    Except EmuError (BitVec 32) := do
  let (rt, width) ← parseFpRegister (operand ops 0) line
  let am ← parseAddressingMode (trim (joinAddress (ops.drop 1))) line
  let size := width.sizeField
  let opc := width.opcHigh * 2 + load
  let mnemonic := fpMnemonic load unscaled
  match am with
  | .immediate rn offset .unsigned =>
      let offsetVal := offset.getD 0
      if unscaled ∨ needsUnscaled offsetVal width.bytes then
        encodeImm9 offsetVal size opc 0b00 rn rt line
      else if 4095 < scaledField offsetVal width.bytes then asmErr line "FP offset out of range"
      else return fpScaledWord size opc (scaledField offsetVal width.bytes) rn rt
  | .immediate rn offset mode =>
      if unscaled then
        asmErr line (mnemonic ++ " takes a plain [Xn, #imm] address, with no writeback")
      else encodeImm9 (offset.getD 0) size opc (writebackField mode) rn rt line
  | .regOffset rn rm option shiftAmount =>
      if unscaled then
        asmErr line (mnemonic ++ " takes a plain [Xn, #imm] address, not a register offset")
      else do
        let s ← scaleBit width.scaleShift shiftAmount (fun a => "this " ++
          toString width.bytes ++ "-byte access can only scale its index register by #0 or #" ++
          toString width.scaleShift ++ ", got #" ++ i64Text a) line
        return fpRegWord size opc rm option s rn rt

def encodeLdurStur (ops : List (List Char)) (load line : Nat) : Except EmuError (BitVec 32) :=
  if ops.length < 2 then asmErr line "LDUR/STUR requires at least 2 operands"
  else encodeLdstFp ops load true line

end SimdFp

/-- LDR and STR and their byte and halfword forms.  Only the bare ones take a SIMD&FP
register, and these pick their size by the register. -/
def encodeLdst (ops : List (List Char)) (load size line : Nat) : Except EmuError (BitVec 32) :=
  if ops.length < 2 then asmErr line "LDR/STR requires at least 2 operands"
  else if (((trim (operand ops 0)).head?).bind FpWidth.fromLetter).isSome ∧ size = 0b11 then
    encodeLdstFp ops load false line
  else do
    let (rt, targetIsX) ← parseRegister (operand ops 0) line
    let size := if size = 0b11 ∧ targetIsX = false then 0b10 else size
    match ← parseAddressingMode (trim (joinAddress (ops.drop 1))) line with
    | .immediate rn offset .unsigned =>
        let offsetVal := offset.getD 0
        let scale := (MemSize.fromSizeField size).bytes
        if needsUnscaled offsetVal scale then
          if fitsImm9 offsetVal then
            return ldstImm9Word size load (lowBits offsetVal 9) 0 rn rt
          else asmErr line ("offset must be scaled and positive, or within [-256, 255] for " ++
            "the unscaled form")
        else if 4095 < scaledField offsetVal scale then asmErr line "offset out of range"
        else return ldstScaledWord size load (scaledField offsetVal scale) rn rt
    | .immediate rn offset mode =>
        let offsetVal := offset.getD 0
        if fitsImm9 offsetVal then
          return ldstImm9Word size load (lowBits offsetVal 9) (writebackField mode) rn rt
        else asmErr line "pre/post-index offset must be in [-256, 255]"
    | .regOffset rn rm option shiftAmount => do
        let s ← scaleBit size shiftAmount (fun a => "a " ++ toString (8 * 2 ^ size) ++
          "-bit access can only scale its index register by #0 or #" ++ toString size ++
          ", got #" ++ i64Text a) line
        return ldstRegWord size load rm option s rn rt

section Pair

def pairModeField : AddressMode → Nat
  | .postIndex => 0b01
  | .unsigned => 0b10
  | .preIndex => 0b11

def pairWord (opc vector mode load imm7 rt2 rn rt : Nat) : BitVec 32 :=
  word [(opc, 30), (0b101, 27), (vector, 26), (mode, 23), (load, 22), (imm7, 15), (rt2, 10),
    (rn, 5), (rt, 0)]

def pairAddress (am : AddressingMode) (line : Nat) :
    Except EmuError (Nat × Word × AddressMode) :=
  match am with
  | .immediate rn offset mode => .ok (rn, offset.getD 0, mode)
  | .regOffset _ _ _ _ => asmErr line "LDP/STP does not accept a register offset"

def pairOffset (offset : Word) (scale : Nat) (hint : String) (line : Nat) :
    Except EmuError Nat :=
  if offset.toInt % scale ≠ 0 then asmErr line "pair offset must be aligned to register size"
  else
    let quotient := offset.toInt / scale
    if quotient < -64 ∨ 63 < quotient then
      asmErr line ("pair offset " ++ i64Text offset ++ " is out of range: stp/ldp reaches [" ++
        toString (-64 * (scale : Int)) ++ ", " ++ toString (63 * scale) ++
        "] for this register width" ++ hint)
    else .ok (quotient % 128).toNat

def pairFrameHint : String :=
  "; for a larger frame, push the pair first (stp x29, x30, [sp, -16]!) and move sp " ++
  "separately (sub sp, sp, #N)"

def requireSameFpWidth (name : String) (first second : FpWidth) (line : Nat) :
    Except EmuError FpWidth :=
  if second ≠ first then
    asmErr line (name ++ " needs all S or all D registers (use fcvt to convert between widths)")
  else .ok first

/-- Pairs of SIMD&FP registers; `noAllocate` is LDNP and STNP. -/
def encodeLdstPairFp (ops : List (List Char)) (load : Nat) (noAllocate : Bool) (line : Nat) :
    Except EmuError (BitVec 32) := do
  let (rt, wt) ← parseFpRegister (operand ops 0) line
  let (rt2, wt2) ← parseFpRegister (operand ops 1) line
  let width ← requireSameFpWidth "ldp/stp" wt wt2 line
  match width.pairOpc with
  | none => asmErr line ("there is no " ++ width.letter ++
      "-register pair form: ldp/stp take s, d or q registers")
  | some opc => do
      let am ← parseAddressingMode (trim (joinAddress (ops.drop 2))) line
      let (rn, offset, mode) ← pairAddress am line
      if noAllocate = true ∧ mode ≠ .unsigned then
        asmErr line "LDNP/STNP take a plain [Xn, #imm] address, with no writeback"
      else do
        let imm7 ← pairOffset offset width.bytes "" line
        return pairWord opc 1 (if noAllocate then 0b00 else pairModeField mode) load imm7 rt2 rn
          rt

def encodeLdstPairNoAllocate (ops : List (List Char)) (load line : Nat) :
    Except EmuError (BitVec 32) :=
  if ops.length < 3 then asmErr line "LDNP/STNP requires at least 3 operands"
  else encodeLdstPairFp ops load true line

/-- Whether the first operand of a pair names a SIMD&FP register; `sp` does not. -/
def isFpPairOperand (op : List Char) : Bool :=
  match trim op with
  | c :: digits => (FpWidth.fromLetter c).isSome && !digits.isEmpty && digits.all Char.isDigit
  | [] => false

def bitsName (sf : Bool) : String := if sf then "64" else "32"

/-- LDP and STP, and with `signedWords` LDPSW. -/
def encodeLdstPair (ops : List (List Char)) (load : Nat) (signedWords : Bool) (line : Nat) :
    Except EmuError (BitVec 32) :=
  if ops.length < 3 then asmErr line "LDP/STP requires at least 3 operands"
  else if isFpPairOperand (operand ops 0) then encodeLdstPairFp ops load false line
  else do
    let (rt, sf) ← parseRegister (operand ops 0) line
    let (rt2, sf2) ← parseRegister (operand ops 1) line
    if sf ≠ sf2 then
      asmErr line ("ldp/stp needs both registers the same width: `" ++
        String.ofList (trim (operand ops 0)) ++ "` is " ++ bitsName sf ++ "-bit but `" ++
        String.ofList (trim (operand ops 1)) ++ "` is " ++ bitsName sf2 ++ "-bit")
    else do
      let am ← parseAddressingMode (trim (joinAddress (ops.drop 2))) line
      let (rn, offset, mode) ← pairAddress am line
      if signedWords = true ∧ sf = false then
        asmErr line "LDPSW loads into X registers: ldpsw x1, x2, [x0]"
      else do
        let imm7 ← pairOffset offset (if sf ∧ ¬ signedWords then 8 else 4) pairFrameHint line
        let opc := if signedWords then 0b01 else if sf then 0b10 else 0b00
        return pairWord opc 0 (pairModeField mode) load imm7 rt2 rn rt

end Pair

end Assembler

end Playground
