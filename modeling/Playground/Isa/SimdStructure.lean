/-
LD1-LD4 and ST1-ST4 in their three shapes: the decoder of the class and its executor.  The
other instructions of the vector unit work on registers alone; they stand here as the calls
they make on the register file.
-/
import Playground.Isa.Execute
import Playground.Isa.Decode

namespace Playground

open Fields (bits)

/-- Which of the three shapes a structure load or store takes. -/
inductive SimdStructShape
  | multiple
  | lane (index : Nat)
  | replicate
deriving DecidableEq, Repr

structure SimdStructure where
  load : Bool
  structures : Nat
  count : Nat
  esize : Nat
  q : Bool
  shape : SimdStructShape
  rt : Nat
  rn : Nat
  post : Option Nat
deriving DecidableEq, Repr

/-- The opcodes of the multiple shape, with their structures and registers. -/
def simdStructMultiple : List (Nat × Nat × Nat) :=
  [(0b0000, 4, 4), (0b0010, 1, 4), (0b0100, 3, 3), (0b0110, 1, 3), (0b0111, 1, 1),
    (0b1000, 2, 2), (0b1010, 1, 2)]

/-- The lane index Q, S and the size field hold between them. -/
def simdStructIndex (esize : Nat) (q s : Bool) (size : Nat) : Option Nat :=
  match esize with
  | 1 => some (q.toNat * 8 + s.toNat * 4 + size)
  | 2 => if size % 2 = 0 then some (q.toNat * 4 + s.toNat * 2 + size / 2) else none
  | 4 => if size = 0b00 then some (q.toNat * 2 + s.toNat) else none
  | 8 => if size = 0b01 ∧ s = false then some q.toNat else none
  | _ => none

/-- The Q, S and size bits an index packs into. -/
def simdStructIndexBits (esize index : Nat) : Bool × Bool × Nat :=
  match esize with
  | 1 => (decide (index &&& 8 ≠ 0), decide (index &&& 4 ≠ 0), index &&& 3)
  | 2 => (decide (index &&& 4 ≠ 0), decide (index &&& 2 ≠ 0), (index &&& 1) <<< 1)
  | 4 => (decide (index &&& 2 ≠ 0), decide (index &&& 1 ≠ 0), 0b00)
  | _ => (decide (index &&& 1 ≠ 0), false, 0b01)

namespace Decode

def singleShape (load q s : Bool) (opcode size : Nat) : Option (Nat × SimdStructShape) :=
  if opcode / 2 = 0b11 then
    if s = true ∨ load = false then none else some (2 ^ size, .replicate)
  else
    let esize := match opcode / 2 with
      | 0b00 => 1
      | 0b01 => 2
      | _ => if size % 2 = 0 then 4 else 8
    (simdStructIndex esize q s size).map fun index => (esize, .lane index)

def decodeSimdLdstStructure (instr : BitVec 32) : Option SimdStructure :=
  let q := flag instr 30
  let load := flag instr 22
  let r := flag instr 21
  let rm := bits instr 20 16
  let size := bits instr 11 10
  let rn := bits instr 9 5
  let rt := bits instr 4 0
  let writeback := flag instr 23
  if writeback = false ∧ rm ≠ 0 then none
  else
    let post := if writeback then some rm else none
    if flag instr 24 = false then
      if r then none
      else
        match simdStructMultiple.lookup (bits instr 15 12) with
        | none => none
        | some (structures, count) =>
            if 2 ^ size = 8 ∧ q = false ∧ 1 < structures then none
            else some ⟨load, structures, count, 2 ^ size, q, .multiple, rt, rn, post⟩
    else
      let opcode := bits instr 15 13
      let structures := 1 + opcode % 2 * 2 + r.toNat
      (singleShape load q (flag instr 12) opcode size).map fun (esize, shape) =>
        ⟨load, structures, structures, esize, q, shape, rt, rn, post⟩

end Decode

namespace SimdStructure

/-- What the decoder promises of the fields it reads. -/
structure WellFormed (s : SimdStructure) : Prop where
  esize : s.esize ∈ [1, 2, 4, 8]
  structures : 0 < s.structures ∧ s.structures ∣ s.count
  count : 0 < s.count ∧ s.count ≤ 4
  lane : ∀ index, s.shape = .lane index → index * s.esize < 16
  replicate : s.shape = .replicate → s.load = true

theorem WellFormed.esize_bounds {s : SimdStructure} (h : s.WellFormed) :
    0 < s.esize ∧ s.esize ≤ 8 := by
  have hesize := h.esize
  simp only [List.mem_cons, List.not_mem_nil, or_false] at hesize
  omega

theorem lane_lt {esize size index : Nat} {q s : Bool} (hsize : size < 4)
    (h : simdStructIndex esize q s size = some index) : index * esize < 16 := by
  have hq := Bool.toNat_lt q
  have hs := Bool.toNat_lt s
  unfold simdStructIndex at h
  split at h
  · cases h
    omega
  · split at h
    · cases h
      omega
    · cases h
  · split at h
    · cases h
      omega
    · cases h
  · split at h
    · cases h
      omega
    · cases h
  · cases h

theorem singleShape_ok {load q s : Bool} {opcode size esize : Nat} {shape : SimdStructShape}
    (hsize : size < 4) (h : Decode.singleShape load q s opcode size = some (esize, shape)) :
    esize ∈ [1, 2, 4, 8] ∧ (∀ index, shape = .lane index → index * esize < 16) ∧
      (shape = .replicate → load = true) := by
  unfold Decode.singleShape at h
  split at h
  · split at h
    · cases h
    · rename_i hload
      cases h
      have hpow : ∀ n, n < 4 → 2 ^ n ∈ [1, 2, 4, 8] := by decide
      have hload : load = true := by simpa using fun h => hload (Or.inr h)
      exact ⟨hpow size hsize, nofun, fun _ => hload⟩
  · simp only at h
    obtain ⟨index, hindex, hpair⟩ := Option.map_eq_some_iff.mp h
    cases hpair
    refine ⟨?_, ?_, nofun⟩
    · split
      · decide
      · decide
      · split <;> decide
    · rintro _ ⟨⟩
      exact lane_lt hsize hindex

theorem wellFormed_of_decode {instr : BitVec 32} {s : SimdStructure}
    (h : Decode.decodeSimdLdstStructure instr = some s) : s.WellFormed := by
  have hsize : bits instr 11 10 < 4 := Nat.mod_lt _ (by decide)
  have hesize : ∀ n, n < 4 → 2 ^ n ∈ [1, 2, 4, 8] := by decide
  unfold Decode.decodeSimdLdstStructure at h
  simp only at h
  split at h
  · cases h
  · split at h
    · split at h
      · cases h
      · split at h
        · cases h
        · rename_i structures count hlookup
          split at h
          · cases h
          · cases h
            have hrow : ∀ row ∈ simdStructMultiple, 0 < row.2.1 ∧ row.2.1 ∣ row.2.2 ∧
                0 < row.2.2 ∧ row.2.2 ≤ 4 := by decide
            obtain ⟨before, after, hsplit, -⟩ := List.lookup_eq_some_iff.mp hlookup
            have hmem : (bits instr 15 12, structures, count) ∈ simdStructMultiple := by
              rw [hsplit]
              simp
            obtain ⟨hpos, hdvd, hcount, hle⟩ := hrow _ hmem
            exact ⟨hesize _ hsize, ⟨hpos, hdvd⟩, ⟨hcount, hle⟩, nofun, nofun⟩
    · obtain ⟨⟨esize, shape⟩, hshape, rfl⟩ := Option.map_eq_some_iff.mp h
      obtain ⟨hesize, hlane, hload⟩ := singleShape_ok hsize hshape
      have hr := Bool.toNat_lt (Decode.flag instr 21)
      refine ⟨hesize, ⟨?_, dvd_refl _⟩, ?_, hlane, hload⟩
      · dsimp only
        omega
      · dsimp only
        omega

end SimdStructure

namespace Exec

variable {α : Type}

/-- The body of a loop for each of these. -/
def each : List α → (α → Exec Unit) → Exec Unit
  | [], _ => pure ()
  | a :: rest, body => do
      body a
      each rest body

/-- Read one lane, zero-extended; a lane that does not exist reads as zero. -/
def readFprLane (index esizeBytes lane : Nat) : Exec Word :=
  look fun m =>
    match RegisterFile.lanePosition index esizeBytes lane with
    | none => 0
    | some (bits, shift) =>
        ((m.regs.fpr (Fin.ofNat 32 index) >>> shift) &&& RegisterFile.laneMask bits).setWidth 64

def writeFprLane (index esizeBytes lane : Nat) (value : Word) : Exec Unit :=
  call (.reg (.writeFprLane index esizeBytes lane value))

end Exec

/-- The total bytes a structure load or store moves. -/
def simdStructBytes (shape : SimdStructShape) (count esize : Nat) (q : Bool) : Nat :=
  count * match shape with
    | .multiple => if q then 16 else 8
    | _ => esize

namespace Execute

/-- One element of `esize` bytes, zero-extended. -/
def readElement (addr : Word) (esize : Nat) : Exec Word :=
  match esize with
  | 1 => (·.setWidth 64) <$> Exec.readU8 addr
  | 2 => (·.setWidth 64) <$> Exec.readU16 addr
  | 4 => (·.setWidth 64) <$> Exec.readU32 addr
  | _ => Exec.readU64 addr

def writeElement (addr : Word) (esize : Nat) (value : Word) : Exec Unit :=
  match esize with
  | 1 => Exec.writeU8 addr (value.setWidth 8)
  | 2 => Exec.writeU16 addr (value.setWidth 16)
  | 4 => Exec.writeU32 addr (value.setWidth 32)
  | _ => Exec.writeU64 addr value

section Structure

variable (s : SimdStructure)

/-- The register list wraps past v31. -/
def regAt (step : Nat) : Nat := (s.rt + step) % 32

def lanes : Nat := (if s.q then 16 else 8) / s.esize

/-- The registers and lanes of the multiple shape, in address order. -/
def multipleLanes : List (Nat × Nat) :=
  (List.range (s.count / s.structures)).flatMap fun turn =>
    (List.range (lanes s)).flatMap fun lane =>
      (List.range s.structures).map fun slot => (regAt s (turn * s.structures + slot), lane)

/-- The register and lane each element goes to or comes from, in address order. -/
def elementLanes : List (Nat × Nat) :=
  match s.shape with
  | .multiple => multipleLanes s
  | .lane index => (List.range s.count).map fun slot => (regAt s slot, index)
  | .replicate => (List.range s.count).map fun slot => (regAt s slot, 0)

/-- Every element's address, register and lane. -/
def elements (base : Word) : List (Word × Nat × Nat) :=
  (elementLanes s).zipIdx.map fun (element, k) =>
    (base + BitVec.ofNat 64 (k * s.esize), element)

/-- Copies of a value side by side in a register. -/
def filled (value : Word) : BitVec 128 :=
  (List.range (lanes s)).foldl
    (fun acc lane => acc ||| (value.setWidth 128 <<< (lane * s.esize * 8))) 0

def moveElement (element : Word × Nat × Nat) : Exec Unit :=
  let (addr, reg, lane) := element
  match s.shape with
  | .replicate => do
      let value ← readElement addr s.esize
      Exec.writeFprQ reg (filled s value)
  | _ =>
      if s.load then do
        let value ← readElement addr s.esize
        Exec.writeFprLane reg s.esize lane value
      else do
        let value ← Exec.readFprLane reg s.esize lane
        writeElement addr s.esize value

/-- A 64-bit arrangement zeroes its destinations before it loads them. -/
def zeroFirst : Exec Unit :=
  if s.shape = .multiple ∧ s.load = true ∧ s.q = false then
    Exec.each (List.range s.count) fun step => Exec.writeFprQ (regAt s step) 0
  else pure ()

def postIndex (base : Word) (total : Nat) : Exec Unit :=
  match s.post with
  | none => pure ()
  | some rm => do
      let step ← if rm = 31 then pure (BitVec.ofNat 64 total) else Exec.readGpr rm true
      Exec.writeGprOrSp s.rn true (base + step)

def execSimdLdstStructure : Exec ExecResult := do
  checkSpAlignment s.rn
  let base ← Exec.readGprOrSp s.rn true
  let total := simdStructBytes s.shape s.count s.esize s.q
  let access : MemAccess := if s.load then .read else .write
  checkGuestAddress base access
  checkGuestAddress (base + BitVec.ofNat 64 (total - 1)) access
  zeroFirst s
  Exec.each (elements s base) (moveElement s)
  postIndex s base total
  return .advance

end Structure

end Execute

/-- An instruction of the vector unit; `W` are those that work on registers alone. -/
inductive VectorInstr (W : Type)
  | ldStStructure (s : SimdStructure) (wf : s.WellFormed)
  | registers (instr : W)

namespace VectorInstr

variable {W : Type}

/-- The decoder of the unit, given one for the floating-point and vector group. -/
def decoder (fp : BitVec 32 → Except EmuError W) : VectorDecoder (VectorInstr W) where
  decodeFpGroup instr := (fp instr).map .registers
  decodeSimdLdstStructure instr :=
    match h : Decode.decodeSimdLdstStructure instr with
    | none => none
    | some s => some (.ldStStructure s (SimdStructure.wellFormed_of_decode h))

/-- Calls on the register file, one after another. -/
def runCalls : List RegCall → Exec ExecResult
  | [] => pure .advance
  | op :: rest => do
      Exec.call (.reg op)
      runCalls rest

/-- Run an instruction of the unit; `calls` are the calls one makes that works on registers
alone. -/
def run (calls : W → RegisterFile → List RegCall) : VectorInstr W → Exec ExecResult
  | .ldStStructure s _ => Execute.execSimdLdstStructure s
  | .registers instr => do
      let ops ← Exec.look fun m => calls instr m.regs
      runCalls ops

end VectorInstr

end Playground
