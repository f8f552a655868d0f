/-
One line of assembly to one word: the mnemonic picks an encoder.  The dispatch is a
table, in the groups of the source.
-/
import Playground.Assembler.Branch

namespace Playground

namespace Assembler

/-- An encoder: the operands and the line's number. -/
abbrev Encoder := List (List Char) → Nat → Except EmuError (BitVec 32)

def dataProcessing (vec : VectorEncoders) : List (String × Encoder) :=
  [ -- moves
    ("MOV", encodeMov vec),
    ("MOVZ", fun ops => encodeMovzk ops 0b10),
    ("MOVK", fun ops => encodeMovzk ops 0b11),
    ("MOVN", fun ops => encodeMovzk ops 0b00),
    -- arithmetic
    ("ADD", fun ops => encodeDp ops 0 0),
    ("ADDS", fun ops => encodeDp ops 0 1),
    ("SUB", fun ops => encodeDp ops 1 0),
    ("SUBS", fun ops => encodeDp ops 1 1),
    ("ADC", fun ops => encodeCarry ops false false),
    ("ADCS", fun ops => encodeCarry ops false true),
    ("SBC", fun ops => encodeCarry ops true false),
    ("SBCS", fun ops => encodeCarry ops true true),
    -- compares
    ("CMP", fun ops => encodeCmp ops 1),
    ("CMN", fun ops => encodeCmp ops 0),
    ("CCMP", fun ops => encodeCondCompare ops 1 "ccmp"),
    ("CCMN", fun ops => encodeCondCompare ops 0 "ccmn"),
    -- logical
    ("AND", fun ops => encodeLogDispatch ops 0b00),
    ("ANDS", fun ops => encodeLogDispatch ops 0b11),
    ("ORR", encodeOrr vec),
    ("EOR", fun ops => encodeLogDispatch ops 0b10),
    ("BIC", encodeBic vec),
    ("ORN", fun ops => encodeLogReg ops 0b01 true),
    ("EON", fun ops => encodeLogReg ops 0b10 true),
    ("MVN", encodeMvn),
    ("TST", encodeTst),
    -- shifts
    ("LSL", fun ops => encodeShift ops .lsl),
    ("LSR", fun ops => encodeShift ops .lsr),
    ("ASR", fun ops => encodeShift ops .asr),
    ("ROR", encodeRor),
    ("EXTR", encodeExtr),
    -- sign and zero extension
    ("SXTB", fun ops => encodeExtend ops true 7),
    ("SXTH", fun ops => encodeExtend ops true 15),
    ("SXTW", fun ops => encodeExtend ops true 31),
    ("UXTB", fun ops => encodeExtend ops false 7),
    ("UXTH", fun ops => encodeExtend ops false 15),
    ("UXTW", encodeExtendWord),
    -- bitfields
    ("UBFX", fun ops => encodeBitfieldAlias ops "UBFX" 0b10 .extract),
    ("SBFX", fun ops => encodeBitfieldAlias ops "SBFX" 0b00 .extract),
    ("BFI", fun ops => encodeBitfieldAlias ops "BFI" 0b01 .insert),
    ("BFXIL", fun ops => encodeBitfieldAlias ops "BFXIL" 0b01 .extract),
    ("UBFIZ", fun ops => encodeBitfieldAlias ops "UBFIZ" 0b10 .insert),
    ("SBFIZ", fun ops => encodeBitfieldAlias ops "SBFIZ" 0b00 .insert),
    -- reversals and counts
    ("CLZ", fun ops => encodeDp1 ops "clz"),
    ("CLS", fun ops => encodeDp1 ops "cls"),
    ("RBIT", fun ops => encodeDp1 ops "rbit"),
    ("REV", fun ops => encodeDp1 ops "rev"),
    ("REV16", fun ops => encodeDp1 ops "rev16"),
    ("REV32", fun ops => encodeDp1 ops "rev32"),
    -- multiply and divide
    ("MUL", fun ops => encodeMulDiv ops 0),
    ("UDIV", fun ops => encodeMulDiv ops 1),
    ("SDIV", fun ops => encodeMulDiv ops 2),
    ("MADD", fun ops => encodeMulAccumulate ops false),
    ("MSUB", fun ops => encodeMulAccumulate ops true),
    ("MNEG", encodeMneg),
    ("SMULL", fun ops => encodeMulWide ops 0b001 true 0 false),
    ("UMULL", fun ops => encodeMulWide ops 0b101 true 0 false),
    ("SMULH", fun ops => encodeMulWide ops 0b010 false 0 false),
    ("UMULH", fun ops => encodeMulWide ops 0b110 false 0 false),
    ("SMADDL", fun ops => encodeMulWide ops 0b001 true 0 true),
    ("SMSUBL", fun ops => encodeMulWide ops 0b001 true 1 true),
    ("UMADDL", fun ops => encodeMulWide ops 0b101 true 0 true),
    ("UMSUBL", fun ops => encodeMulWide ops 0b101 true 1 true),
    ("SMNEGL", fun ops => encodeMnegWide ops 0b001),
    ("UMNEGL", fun ops => encodeMnegWide ops 0b101),
    ("NEG", fun ops => encodeNeg ops false),
    ("NEGS", fun ops => encodeNeg ops true),
    -- conditional select
    ("CSEL", fun ops => encodeCondSel ops 0 0),
    ("CSINC", fun ops => encodeCondSel ops 0 1),
    ("CSINV", fun ops => encodeCondSel ops 1 0),
    ("CSNEG", fun ops => encodeCondSel ops 1 1),
    ("CSET", fun ops => encodeCondSelAlias ops "CSET" 0 1 false),
    ("CSETM", fun ops => encodeCondSelAlias ops "CSETM" 1 0 false),
    ("CINC", fun ops => encodeCondSelAlias ops "CINC" 0 1 true),
    ("CINV", fun ops => encodeCondSelAlias ops "CINV" 1 0 true),
    ("CNEG", fun ops => encodeCondSelAlias ops "CNEG" 1 1 true)]

def loadsAndStores : List (String × Encoder) :=
  [("LDR", fun ops => encodeLdst ops 1 0b11),
    ("STR", fun ops => encodeLdst ops 0 0b11),
    ("LDRB", fun ops => encodeLdst ops 1 0b00),
    ("STRB", fun ops => encodeLdst ops 0 0b00),
    ("LDRH", fun ops => encodeLdst ops 1 0b01),
    ("STRH", fun ops => encodeLdst ops 0 0b01),
    ("LDRSB", fun ops => encodeLdrs ops 0b00),
    ("LDRSH", fun ops => encodeLdrs ops 0b01),
    ("LDRSW", fun ops => encodeLdrs ops 0b10),
    ("LDUR", fun ops => encodeLdurStur ops 1),
    ("STUR", fun ops => encodeLdurStur ops 0),
    ("LDP", fun ops => encodeLdstPair ops 1 false),
    ("STP", fun ops => encodeLdstPair ops 0 false),
    ("LDPSW", fun ops => encodeLdstPair ops 1 true),
    ("LDNP", fun ops => encodeLdstPairNoAllocate ops 1),
    ("STNP", fun ops => encodeLdstPairNoAllocate ops 0)]

/-- Address formation, branches and the system instructions. -/
def control (pc : Word) (labels : SymbolTable) : List (String × Encoder) :=
  [("ADR", fun ops => encodeAdr ops false pc labels),
    ("ADRP", fun ops => encodeAdr ops true pc labels),
    ("B", fun ops => encodeBranchImm ops false pc labels),
    ("BL", fun ops => encodeBranchImm ops true pc labels),
    ("BR", fun ops => encodeBranchReg ops 0b0000),
    ("BLR", fun ops => encodeBranchReg ops 0b0001),
    ("RET", encodeRet),
    ("CBZ", fun ops => encodeCompareBranch ops false pc labels),
    ("CBNZ", fun ops => encodeCompareBranch ops true pc labels),
    ("TBZ", fun ops => encodeTestBranch ops false pc labels),
    ("TBNZ", fun ops => encodeTestBranch ops true pc labels),
    ("NOP", fun _ _ => .ok nopWord),
    ("SVC", encodeSvc),
    ("BRK", encodeBrk)]

/-- The encoder a table has for an upper-case mnemonic. -/
def findEncoder (table : List (String × Encoder)) (mn : List Char) : Option Encoder :=
  (table.find? fun row => decide (row.1.toList = mn)).map Prod.snd

def unknownMnemonicHint : String :=
  "check the spelling, or look it up in the instruction reference to see whether the " ++
  "playground implements it"

/-- The pieces between commas, each trimmed. -/
def squeezeCommas : List Char → List Char → List Char
  | piece, [] => trim piece.reverse
  | piece, c :: rest =>
      if c = ',' then trim piece.reverse ++ ',' :: squeezeCommas [] rest
      else squeezeCommas (c :: piece) rest

/-- A line as GAS quotes it after an error. -/
def gasEcho (mnemonic operands : List Char) : List Char :=
  if operands.isEmpty then lowerAsciiChars mnemonic
  else lowerAsciiChars mnemonic ++ ' ' :: squeezeCommas [] operands

def unknownMnemonic (mnemonic operands : List Char) (line : Nat) : EmuError :=
  .assemblyError line ("unknown mnemonic `" ++ String.ofList (lowerAsciiChars mnemonic) ++
    "' -- `" ++ String.ofList (gasEcho mnemonic operands) ++ "'\n" ++ unknownMnemonicHint)

/-- The word of a mnemonic in upper case, when an encoder knows it. -/
def encodeOps (vec : VectorEncoders) (mn : List Char) (ops : List (List Char)) (pc : Word)
    (labels : SymbolTable) (line : Nat) : Option (Except EmuError (BitVec 32)) :=
  match bcondCondition mn with
  | some cond => some (encodeBcond ops cond pc labels line)
  | none =>
      -- a dozen mnemonics name a vector instruction too, and the operands tell which
      if isSimdIntegerLine vec mn ops then some (vec.encodeSimdInteger mn ops line)
      else if isSimdFloatLine vec mn ops then some (vec.encodeSimdFloat mn ops line)
      else
        match findEncoder (dataProcessing vec ++ loadsAndStores ++ control pc labels) mn with
        | some encode => some (encode ops line)
        | none => vec.encode mn ops line

def encodeLine (vec : VectorEncoders) : EncodeLine := fun text pc labels line =>
  let (mnemonic, operands) := splitMnemonic text
  let ops := if operands.isEmpty then [] else splitOperands operands
  match encodeOps vec (toUppercase mnemonic) ops pc labels line with
  | some word => word
  | none => .error (unknownMnemonic mnemonic operands line)

end Assembler

end Playground
