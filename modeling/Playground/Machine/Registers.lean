/-
The register file, with the log that lets a step-back frame put back what one
step overwrote.  Indices are the source's `u8` register numbers; the arrays are
functions, so a write is a `Function.update`.
-/
import Playground.Library.Journal
import Playground.Machine.Errors

namespace Playground

abbrev Byte := BitVec 8

instance : LawfulBEq Byte := inferInstance

/-- A 64-bit machine word, also an address. -/
abbrev Word := BitVec 64

/-- `u64` addition that stops at the top. -/
def saturatingAdd (a b : Nat) : Nat := min (a + b) (2 ^ 64 - 1)

/-- ARM64 condition codes used by `B.cond` and conditional select. -/
inductive Condition
  | eq | ne | hs | lo | mi | pl | vs | vc | hi | ls | ge | lt | gt | le | al
deriving DecidableEq, Repr

structure NzcvFlags where
  n : Bool
  z : Bool
  c : Bool
  v : Bool
deriving DecidableEq, Repr, Inhabited

namespace NzcvFlags

/-- Pack into a 4-bit value: N is bit 3, Z bit 2, C bit 1, V bit 0. -/
def pack (f : NzcvFlags) : Nat :=
  8 * f.n.toNat + 4 * f.z.toNat + 2 * f.c.toNat + f.v.toNat

def unpack (bits : Nat) : NzcvFlags :=
  ⟨bits.testBit 3, bits.testBit 2, bits.testBit 1, bits.testBit 0⟩

/-- Evaluate a condition code against the flags. -/
def check (f : NzcvFlags) : Condition → Bool
  | .eq => f.z
  | .ne => !f.z
  | .hs => f.c
  | .lo => !f.c
  | .mi => f.n
  | .pl => !f.n
  | .vs => f.v
  | .vc => !f.v
  | .hi => f.c && !f.z
  | .ls => !f.c || f.z
  | .ge => f.n == f.v
  | .lt => f.n != f.v
  | .gt => !f.z && (f.n == f.v)
  | .le => f.z || (f.n != f.v)
  | .al => true

end NzcvFlags

/-- What a library call leaves in every register AAPCS64 lets it change. -/
def clobberPattern : Word := 0xDEADBEEFDEADBEEF

/-- The flags a library call leaves. -/
def clobberNzcv : Nat := 0b1101

/-- A set of registers by bit: x0-x30 in `x` (bit 31 is the flags) and d0-d31
in `d`. -/
structure RegMask where
  x : BitVec 32
  d : BitVec 32
deriving DecidableEq, Repr

instance : Inhabited RegMask := ⟨⟨0, 0⟩⟩

def RegMask.isEmpty (m : RegMask) : Bool :=
  m.x == 0 && m.d == 0

/-- The flags' number in the clobber bookkeeping, where `xN` is N and `dN` is
32 + N. -/
def flagsCode : Nat := 31

def flagsBit : BitVec 32 := 1#32 <<< flagsCode

/-- Where a register's leftovers came from. -/
structure ClobberOrigin where
  register : Nat
  callPc : BitVec 32
  copiedAt : BitVec 32
deriving DecidableEq, Repr

instance : Inhabited ClobberOrigin := ⟨⟨0, 0, 0⟩⟩

/-- One array entry a step overwrote, with the value it held. -/
inductive RegEdit
  | gpr (index : Nat) (old : Word)
  | fpr (index : Nat) (old : BitVec 128)
  | origin (index : Nat) (old : ClobberOrigin)

/-- What a step changed in the register file: the small fields as they were
before it, and each array entry it overwrote. -/
structure RegUndo where
  sp : Word
  pc : Word
  nzcv : NzcvFlags
  clobbered : RegMask
  clobberedReads : RegMask
  narrow : BitVec 32
  edits : List RegEdit

instance : Inhabited RegUndo :=
  ⟨⟨0, 0, default, default, default, 0, []⟩⟩

/-- The three arrays of the register file: the part that is logged entry by
entry rather than copied. -/
structure RegArrays where
  gpr : Fin 31 → Word
  fpr : Fin 32 → BitVec 128
  clobberOrigins : Fin 64 → ClobberOrigin

/-- The registers themselves, without the undo bookkeeping: what a named save
copies and what a step back has to restore. -/
structure RegisterState extends RegArrays where
  sp : Word
  pc : Word
  nzcv : NzcvFlags
  clobbered : RegMask
  clobberedReads : RegMask
  narrow : BitVec 32

/-- The register file.  While `recording`, `undo` holds what the running step
overwrote; between steps it is a spare buffer. -/
structure RegisterFile extends RegisterState where
  undo : RegUndo
  recording : Bool

-- The vector registers and the clobber codes wrap by `Fin.ofNat`.
instance neZero_fprs : NeZero 32 := ⟨by decide⟩

instance neZero_codes : NeZero 64 := ⟨by decide⟩

/-- Put one logged entry back.  The index checks are the source's own. -/
def RegArrays.revert (edit : RegEdit) (a : RegArrays) : RegArrays :=
  match edit with
  | .gpr i old =>
      if h : i < 31 then { a with gpr := Function.update a.gpr ⟨i, h⟩ old } else a
  | .fpr i old =>
      { a with fpr := Function.update a.fpr (Fin.ofNat 32 i) old }
  | .origin i old =>
      { a with clobberOrigins := Function.update a.clobberOrigins (Fin.ofNat 64 i) old }

namespace RegisterFile

/-- Fresh register file: all zeros. -/
def new : RegisterFile where
  gpr := fun _ => 0
  fpr := fun _ => 0
  clobberOrigins := fun _ => default
  sp := 0
  pc := 0
  nzcv := ⟨false, false, false, false⟩
  clobbered := default
  clobberedReads := default
  narrow := 0
  undo := default
  recording := false

/-- Take the small fields into `slot`'s buffer and start logging.  The buffer
trades places with this file's spare until `finishUndo` trades it back. -/
def recordUndo (r : RegisterFile) (slot : RegUndo) : RegisterFile × RegUndo :=
  ({ r with
      undo := { slot with
        sp := r.sp, pc := r.pc, nzcv := r.nzcv, clobbered := r.clobbered,
        clobberedReads := r.clobberedReads, narrow := r.narrow, edits := [] }
      recording := true },
    r.undo)

/-- Stop logging and trade the filled log back into `slot`. -/
def finishUndo (r : RegisterFile) (slot : RegUndo) : RegisterFile × RegUndo :=
  if r.recording then ({ r with undo := slot, recording := false }, r.undo)
  else (r, slot)

/-- Put back every logged entry, newest first, and the small fields. -/
def undoStep (r : RegisterFile) (log : RegUndo) : RegisterFile :=
  { r with
    toRegArrays := Journal.revertAll RegArrays.revert log.edits r.toRegArrays
    sp := log.sp, pc := log.pc, nzcv := log.nzcv, clobbered := log.clobbered,
    clobberedReads := log.clobberedReads, narrow := log.narrow }

def log (r : RegisterFile) (edit : RegEdit) : RegisterFile :=
  if r.recording then
    { r with undo := { r.undo with edits := r.undo.edits ++ [edit] } }
  else r

/-- Log `fpr[index]` before a write replaces it. -/
def logFpr (r : RegisterFile) (index : Nat) : RegisterFile :=
  r.log (.fpr index (r.fpr (Fin.ofNat 32 index)))

/-- Note which of these registers a read found still holding a call's
leftovers. -/
def markRead (r : RegisterFile) (x d : BitVec 32) : RegisterFile :=
  { r with clobberedReads :=
      ⟨r.clobberedReads.x ||| (x &&& r.clobbered.x),
        r.clobberedReads.d ||| (d &&& r.clobbered.d)⟩ }

/-- The flags count as a call's leftovers while they still read as its
pattern. -/
def markFlagsRead (r : RegisterFile) : RegisterFile :=
  if r.nzcv.pack = clobberNzcv then r.markRead flagsBit 0 else r

/-- Evaluate a condition, as a read of the flags. -/
def conditionHolds (r : RegisterFile) (cond : Condition) : RegisterFile × Bool :=
  (if cond = .al then r else r.markFlagsRead, r.nzcv.check cond)

def carryFlag (r : RegisterFile) : RegisterFile × Bool :=
  (r.markFlagsRead, r.nzcv.c)

/-- Set the flags a conditional compare chose. -/
def setNzcv (r : RegisterFile) (flags : NzcvFlags) : RegisterFile :=
  { r with clobbered := { r.clobbered with x := r.clobbered.x &&& ~~~flagsBit }
           nzcv := flags }

/-- Index 31 and above reads zero; a 32-bit read masks the upper half. -/
def gprValue (r : RegisterFile) (index : Nat) (sf : Bool) : Word :=
  let val := if h : index < 31 then r.gpr ⟨index, h⟩ else 0
  if sf then val else val &&& 0xFFFFFFFF

def readGpr (r : RegisterFile) (index : Nat) (sf : Bool) : RegisterFile × Word :=
  (if index < 31 then r.markRead (1#32 <<< index) 0 else r, r.gprValue index sf)

/-- Write a general-purpose register.  Index 31 is a no-op (a write to XZR),
and a 32-bit write zero-extends. -/
def writeGpr (r : RegisterFile) (index : Nat) (sf : Bool) (value : Word) :
    RegisterFile :=
  if h : index < 31 then
    let r := { r with
      clobbered := { r.clobbered with x := r.clobbered.x &&& ~~~(1#32 <<< index) }
      narrow := (r.narrow &&& ~~~(1#32 <<< index)) |||
        ((if sf then 0 else 1 : BitVec 32) <<< index) }
    let r := r.log (.gpr index (r.gpr ⟨index, h⟩))
    let value := if sf then value else value &&& 0xFFFFFFFF
    { r with gpr := Function.update r.gpr ⟨index, h⟩ value }
  else r

/-- The width xN's latest write had: 4 after a write to wN, else 8. -/
def writeWidth (r : RegisterFile) (index : Nat) : Nat :=
  if (r.narrow >>> (index % 32)) &&& 1 ≠ 0 then 4 else 8

def writeSp (r : RegisterFile) (value : Word) : RegisterFile :=
  { r with sp := value }

def writePc (r : RegisterFile) (value : Word) : RegisterFile :=
  { r with pc := value }

/-- The executor's own assignments to the public `nzcv` field. -/
def assignNzcv (r : RegisterFile) (flags : NzcvFlags) : RegisterFile :=
  { r with nzcv := flags }

/-- A write of the low 64 bits replaces whatever a call left there. -/
def unclobberFpr (r : RegisterFile) (index : Nat) : RegisterFile :=
  { r with clobbered :=
      { r.clobbered with d := r.clobbered.d &&& ~~~(1#32 <<< index) } }

def readFprBits (r : RegisterFile) (index : Nat) : RegisterFile × Word :=
  if h : index < 32 then
    (r.markRead 0 (1#32 <<< index), (r.fpr ⟨index, h⟩).setWidth 64)
  else (r, 0)

/-- The shared tail of every FP write: `keep` is false for a lane of the upper
half, which leaves the low half's leftovers alone. -/
def storeFpr (r : RegisterFile) (index : Nat) (low : Bool) (value : BitVec 128) :
    RegisterFile :=
  if h : index < 32 then
    let r := if low then r.unclobberFpr index else r
    let r := r.logFpr index
    { r with fpr := Function.update r.fpr ⟨index, h⟩ value }
  else r

/-- Write the D view; bits 127:64 are zeroed. -/
def writeFprBits (r : RegisterFile) (index : Nat) (value : Word) : RegisterFile :=
  r.storeFpr index true (value.setWidth 128)

def writeFprQ (r : RegisterFile) (index : Nat) (value : BitVec 128) : RegisterFile :=
  r.storeFpr index true value

/-- Write a B/H/S/D scalar view; everything above the width is zeroed. -/
def writeFprScalar (r : RegisterFile) (index bytes : Nat) (value : Word) :
    RegisterFile :=
  r.storeFpr index true
    (match bytes with
      | 1 => (value.setWidth 8).setWidth 128
      | 2 => (value.setWidth 16).setWidth 128
      | 4 => (value.setWidth 32).setWidth 128
      | _ => value.setWidth 128)

/-- Element width in bits and its bit offset, or `none` when the lane does not
exist. -/
def lanePosition (index esizeBytes lane : Nat) : Option (Nat × Nat) :=
  if index ≥ 32 ∨ esizeBytes = 0 ∨ esizeBytes > 8 then none
  else if lane ≥ 128 / (esizeBytes * 8) then none
  else some (esizeBytes * 8, lane * (esizeBytes * 8))

def laneMask (bits : Nat) : BitVec 128 :=
  if bits ≥ 128 then BitVec.allOnes 128 else (1#128 <<< bits) - 1

def writeFprLane (r : RegisterFile) (index esizeBytes lane : Nat) (value : Word) :
    RegisterFile :=
  match lanePosition index esizeBytes lane with
  | none => r
  | some (bits, shift) =>
      let mask := laneMask bits
      r.storeFpr index (decide (shift < 64))
        ((r.fpr (Fin.ofNat 32 index) &&& ~~~(mask <<< shift)) |||
          ((value.setWidth 128 &&& mask) <<< shift))

def clobberLog (a : RegArrays) : List RegEdit :=
  (List.finRange 31).map (fun i : Fin 31 => RegEdit.gpr i.val (a.gpr i)) ++
  (List.finRange 32).map (fun i : Fin 32 => RegEdit.fpr i.val (a.fpr i)) ++
  (List.finRange 64).map (fun i : Fin 64 => RegEdit.origin i.val (a.clobberOrigins i))

/-- The FP file a library call leaves: v8-v15 keep their low halves. -/
def clobberedFpr (keepV0 : Bool) (fpr : Fin 32 → BitVec 128) : Fin 32 → BitVec 128 :=
  fun i =>
    let pattern := clobberPattern.setWidth 128
    if i = 0 ∧ keepV0 then fpr i
    else if 8 ≤ i.val ∧ i.val < 16 then
      (fpr i &&& 0xFFFFFFFFFFFFFFFF) ||| (pattern <<< 64)
    else (pattern <<< 64) ||| pattern

/-- The D registers a library call overwrites, as a mask. -/
def clobberedD (keepV0 : Bool) : BitVec 32 :=
  0xFFFF00FF &&& ~~~(if keepV0 then 1 else 0)

/-- The X registers a library call overwrites and the flags, as a mask. -/
def clobberedX (keepX0 : Bool) : BitVec 32 :=
  (0x7FFFF &&& ~~~(if keepX0 then 1 else 0)) ||| flagsBit

/-- Overwrite everything AAPCS64 lets a called function change. -/
def clobberCallerSaved (r : RegisterFile) (keepX0 keepV0 : Bool) (callPc : Word) :
    RegisterFile :=
  let r := if r.recording then
      { r with undo := { r.undo with edits := r.undo.edits ++ clobberLog r.toRegArrays } }
    else r
  let x := clobberedX keepX0
  let d := clobberedD keepV0
  let fresh : BitVec 64 := d ++ x
  { r with
    gpr := fun i => if keepX0.toNat ≤ i.val ∧ i.val ≤ 18 then clobberPattern else r.gpr i
    fpr := clobberedFpr keepV0 r.fpr
    nzcv := NzcvFlags.unpack clobberNzcv
    clobbered := ⟨r.clobbered.x ||| x, r.clobbered.d ||| d⟩
    narrow := r.narrow &&& ~~~x
    clobberOrigins := fun code =>
      if fresh.getLsbD code then ⟨code, callPc.setWidth 32, 0⟩
      else r.clobberOrigins code }

/-- Replace one clobber origin, logging the old one. -/
def setOrigin (r : RegisterFile) (code : Nat) (origin : ClobberOrigin) : RegisterFile :=
  let r := r.log (.origin code (r.clobberOrigins (Fin.ofNat 64 code)))
  { r with clobberOrigins :=
      Function.update r.clobberOrigins (Fin.ofNat 64 code) origin }

/-- Mark the callee-saved registers in `mask` as left changed by the call whose
`ret` is at `retPc`. -/
def markCalleeSaved (r : RegisterFile) (mask : BitVec 32) (retPc : Word) : RegisterFile :=
  let r := ((List.range 10).map (· + 19)).foldl (fun r code =>
    if mask.getLsbD code then r.setOrigin code ⟨code, retPc.setWidth 32, 0⟩ else r) r
  { r with clobbered := { r.clobbered with x := r.clobbered.x ||| mask } }

def takeClobberedReads (r : RegisterFile) : RegisterFile × RegMask :=
  ({ r with clobberedReads := default }, r.clobberedReads)

/-- A copy moves leftovers without using them: the destination takes over the
source's origin. -/
def carryClobber (r : RegisterFile) (source dest : Nat) (pc : BitVec 32) : RegisterFile :=
  let origin := r.clobberOrigins (Fin.ofNat 64 source)
  let origin := if origin.copiedAt = 0 then { origin with copiedAt := pc } else origin
  let r := r.setOrigin dest origin
  if dest < 32 then
    { r with clobbered := { r.clobbered with x := r.clobbered.x ||| (1#32 <<< dest) } }
  else
    { r with clobbered := { r.clobbered with d := r.clobbered.d ||| (1#32 <<< (dest - 32)) } }

/-- All 31 GPRs and SP as a flat array. -/
def snapshot (r : RegisterFile) : Fin 32 → Word :=
  fun i => if h : i.val < 31 then r.gpr ⟨i, h⟩ else r.sp

end RegisterFile

end Playground
