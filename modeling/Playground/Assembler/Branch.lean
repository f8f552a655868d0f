/-
Encoders of branches and of the other instructions that name a label, and of the
exceptions.
-/
import Playground.Assembler.LoadStore
import Playground.Frontend.Emission

namespace Playground

namespace Assembler

def undefinedLabel (line : Nat) (target : List Char) : EmuError :=
  .assemblyError line ("undefined reference to `" ++ String.ofList target ++
    "'\nno line defines `" ++ String.ofList target ++
    ":`: check the spelling, and check that the label line ends with a `:`")

/-- A label as it is written, else in lower case. -/
def lookupLabel (labels : SymbolTable) (target : List Char) (line : Nat) : Except EmuError Word :=
  match (labels (String.ofList target)).or (labels (String.ofList (toLowercase target))) with
  | some addr => .ok addr
  | none => .error (undefinedLabel line target)

def pageOf (addr : Word) : Word := addr &&& ~~~0xFFF

/-- What ADR or ADRP adds to its base: bytes, or pages. -/
def adrDisplacement (adrp : Bool) (target pc : Word) : Word :=
  if adrp then (pageOf target - pageOf pc).sshiftRight 12 else target - pc

def encodeAdr (ops : List (List Char)) (adrp : Bool) (pc : Word) (labels : SymbolTable)
    (line : Nat) : Except EmuError (BitVec 32) :=
  if ops.length ≠ 2 then asmErr line "ADR/ADRP requires 2 operands"
  else do
    let (rd, _) ← parseRegister (operand ops 0) line
    let target := trim (operand ops 1)
    let targetAddr ← if opensNumber target then parseImmediate target line
      else lookupLabel labels target line
    let imm := adrDisplacement adrp targetAddr pc
    if imm.toInt < -2 ^ 20 ∨ 2 ^ 20 ≤ imm.toInt then
      asmErr line "ADR/ADRP target out of +/-1MiB (or +/-4GiB page) range"
    else
      let imm21 := lowBits imm 21
      return word [(adrp.toNat, 31), (imm21 % 4, 29), (0b10000, 24), (imm21 / 4, 5), (rd, 0)]

/-- The distance to a branch's target in bytes, or the number written. -/
def resolveBranchTarget (target : List Char) (pc : Word) (labels : SymbolTable) (line : Nat) :
    Except EmuError Word :=
  if opensNumber target then parseImmediate target line
  else do return (← lookupLabel labels target line) - pc

/-- The displacement in instructions, checked against the signed field's width. -/
def checkBranchReach (offsetInstrs : Int) (immBits : Nat) (mnemonic : String) (line : Nat) :
    Except EmuError Unit :=
  let hi : Int := 2 ^ (immBits - 1) - 1
  if offsetInstrs < -2 ^ (immBits - 1) ∨ hi < offsetInstrs then
    asmErr line (mnemonic ++ " target is out of reach (" ++ toString (offsetInstrs * 4) ++
      " bytes away; this branch reaches " ++ toString (hi * 4) ++ " bytes each way). Branch " ++
      "to a nearer label, or load the address and use br")
  else .ok ()

def branchField (target : List Char) (immBits : Nat) (mnemonic : String) (pc : Word)
    (labels : SymbolTable) (line : Nat) : Except EmuError Nat := do
  let offset ← resolveBranchTarget target pc labels line
  if offset.toInt % 4 ≠ 0 then asmErr line "branch offset must be 4-byte aligned"
  else do
    checkBranchReach (offset.toInt / 4) immBits mnemonic line
    return (offset.toInt / 4 % 2 ^ immBits).toNat

def encodeBranchImm (ops : List (List Char)) (link : Bool) (pc : Word) (labels : SymbolTable)
    (line : Nat) : Except EmuError (BitVec 32) :=
  if ops.length ≠ 1 then asmErr line "B/BL requires 1 operand"
  else do
    let imm26 ← branchField (trim (operand ops 0)) 26 (if link then "bl" else "b") pc labels line
    return word [(link.toNat, 31), (0b00101, 26), (imm26, 0)]

def encodeBcond (ops : List (List Char)) (cond : Nat) (pc : Word) (labels : SymbolTable)
    (line : Nat) : Except EmuError (BitVec 32) :=
  if ops.length ≠ 1 then asmErr line "B.cond requires 1 operand"
  else do
    let imm19 ← branchField (trim (operand ops 0)) 19 "b.cond" pc labels line
    return word [(0x54, 24), (imm19, 5), (cond, 0)]

def encodeCompareBranch (ops : List (List Char)) (nonzero : Bool) (pc : Word)
    (labels : SymbolTable) (line : Nat) : Except EmuError (BitVec 32) :=
  if ops.length ≠ 2 then asmErr line "CBZ/CBNZ requires 2 operands"
  else do
    let (rt, sf) ← parseRegister (operand ops 0) line
    let imm19 ← branchField (trim (operand ops 1)) 19 "cbz/cbnz" pc labels line
    return word [(sf.toNat, 31), (0b011010, 25), (nonzero.toNat, 24), (imm19, 5), (rt, 0)]

def encodeTestBranch (ops : List (List Char)) (nonzero : Bool) (pc : Word)
    (labels : SymbolTable) (line : Nat) : Except EmuError (BitVec 32) :=
  if ops.length ≠ 3 then asmErr line "TBZ/TBNZ requires 3 operands"
  else do
    let (rt, sf) ← parseRegister (operand ops 0) line
    let bit ← parseImmediate (operand ops 1) line
    if bit.toInt < 0 ∨ (regSize sf : Int) ≤ bit.toInt then
      asmErr line "TBZ/TBNZ bit index out of range"
    else do
      let imm14 ← branchField (trim (operand ops 2)) 14 "tbz/tbnz" pc labels line
      return word [(bit.toNat / 32, 31), (0b011011, 25), (nonzero.toNat, 24),
        (bit.toNat % 32, 19), (imm14, 5), (rt, 0)]

/-- The word of BR, BLR and RET. -/
def branchRegWord (opc rn : Nat) : BitVec 32 := word [(0x6B, 25), (opc, 21), (0x1F, 16), (rn, 5)]

def encodeBranchReg (ops : List (List Char)) (opc line : Nat) : Except EmuError (BitVec 32) :=
  if ops.length ≠ 1 then asmErr line "BR/BLR requires 1 operand"
  else do
    let (rn, _) ← parseRegister (operand ops 0) line
    return branchRegWord opc rn

/-- RET, by the link register unless another is named. -/
def encodeRet (ops : List (List Char)) (line : Nat) : Except EmuError (BitVec 32) :=
  if (operand ops 0).isEmpty then .ok (branchRegWord 0b0010 30)
  else do
    let (rn, _) ← parseRegister (operand ops 0) line
    return branchRegWord 0b0010 rn

/-- SVC; its number is cut to sixteen bits. -/
def encodeSvc (ops : List (List Char)) (line : Nat) : Except EmuError (BitVec 32) := do
  let imm ← if (operand ops 0).isEmpty then pure 0 else parseImmediate (operand ops 0) line
  return word [(0x6A0, 21), (lowBits imm 16, 5), (1, 0)]

def encodeBrk (ops : List (List Char)) (line : Nat) : Except EmuError (BitVec 32) :=
  match ops with
  | [op] => do
      let imm ← parseImmediate op line
      if 0xFFFF < imm.toNat then asmErr line "BRK takes an immediate from 0 to 65535"
      else return word [(0x6A1, 21), (imm.toNat, 5)]
  | _ => asmErr line "BRK takes one immediate: brk #1000"

end Assembler

end Playground
