/-
The static frame scan: which registers hold an address in the frame, and whether a function
keeps the course's frame, from its decoded words alone.
-/
import Playground.Isa.Decode
import Playground.Isa.Destinations

namespace Playground

namespace Frames

variable {V : Type}

def bit (r : Nat) : BitVec 32 := if r < 31 then 1#32 <<< r else 0

def writeback (rn : Nat) (mode : IndexMode) : BitVec 32 :=
  if mode = .signedOffset then 0 else bit rn

/-- The general registers an instruction overwrites, bit N for xN, as far as the tracking of
bases goes. -/
def written : Instruction V → BitVec 32
  | .dpImm _ _ rd _ _ _ | .dpReg _ _ rd _ _ _ _ | .moveWide _ _ rd _ _
  | .logImm _ _ rd _ _ _ | .logReg _ _ rd _ _ _ _ _ _ => bit rd
  | .ldSt .ldr rt rn _ _ mode | .ldrSignExtended rt rn _ _ mode _ =>
      bit rt ||| writeback rn mode
  | .ldSt .str _ rn _ _ mode | .fpLdSt _ _ rn _ _ mode _ | .fpLdStPair _ _ _ _ rn _ mode _ =>
      writeback rn mode
  | .ldStPair .stp _ _ _ rn _ mode => writeback rn mode
  | .ldStPair _ _ rt rt2 rn _ mode => bit rt ||| bit rt2 ||| writeback rn mode
  -- x0 to x18
  | .brImm true _ | .brReg .blr _ => 0x7FFFF
  | _ => 0

def Overwrites (i : Instruction V) (r : Nat) : Prop := (written i).getLsbD r = true

instance (i : Instruction V) (r : Nat) : Decidable (Overwrites i r) :=
  inferInstanceAs (Decidable (_ = _))

/-- Whether an instruction changes sp: an add, sub or logical immediate into it, or a base
written back to it. -/
def movesSp : Instruction V → Bool
  | .dpImm op _ rd _ _ _ => !Execute.setsFlags op && rd == 31
  | .dpRegExt op _ rd _ _ _ _ => !Execute.setsFlags op && rd == 31
  | .logImm _ _ rd _ _ setFlags => rd == 31 && !setFlags
  | .ldSt _ _ rn _ _ mode | .ldrSignExtended _ rn _ _ mode _ | .fpLdSt _ _ rn _ _ mode _
  | .ldStPair _ _ _ _ rn _ mode | .fpLdStPair _ _ _ _ rn _ mode _ =>
      rn == 31 && decide (mode ≠ .signedOffset)
  | _ => false

/-- `ldp x29, x30, [sp], M`. -/
def isFrameLdp : Instruction V → Bool
  | .ldStPair .ldp _ 29 30 31 _ .postIndex => true
  | _ => false

/-- `stp x29, x30, [sp, -N]!`. -/
def isFramePush : Instruction V → Bool
  | .ldStPair .stp _ 29 30 31 imm7 .preIndex => imm7.msb
  | _ => false

/-- `mov x29, sp`. -/
def isFrameSet : Instruction V → Bool
  | .dpImm .add true 29 31 0 0 => true
  | _ => false

/-- What the scan of a function has found so far, `count` words in. -/
structure Found where
  count : Nat
  bases : Fin 31 → Option Word
  opens : Bool
  setsFp : Bool
  strays : Bool

def Found.start : Found := ⟨0, fun _ => none, false, false, false⟩

/-- The base an `add xN, x29, imm` sets. -/
def baseSet (r : Fin 31) : Instruction V → Option Word
  | .dpImm .add true rd 29 imm shift =>
      if rd = r.val then some (BitVec.ofNat 64 imm <<< shift) else none
  | _ => none

/-- The scan's look at one word; one that does not decode is passed over. -/
def Found.next (f : Found) : Option (Instruction V) → Found
  | none => { f with count := f.count + 1 }
  | some i =>
      { count := f.count + 1
        bases := fun r =>
          match baseSet r i with
          | some k => some k
          | none => if Overwrites i r then none else f.bases r
        opens := if f.count = 0 then isFramePush i else f.opens
        setsFp := if f.count = 1 then isFrameSet i else f.setsFp
        strays :=
          if f.count < 2 then f.strays
          else f.strays || ((decide (Overwrites i 29) || movesSp i) && !isFrameLdp i) }

section Scan

variable (vec : VectorDecoder V)

/-- The instruction of a word, if it can be read and decodes. -/
def instructionAt (word : Option (BitVec 32)) : Option (Instruction V) :=
  word.bind fun w => (decode vec w).toOption

/-- The scan of a function's words in address order. -/
def scan (words : List (Option (BitVec 32))) : Found :=
  words.foldl (fun f word => f.next (instructionAt vec word)) .start

def courseFrame (words : List (Option (BitVec 32))) : Bool :=
  let f := scan vec words
  f.opens && f.setsFp && !f.strays

end Scan

section Fields

open Fields (bits)
open Decode

/-- The register fields that can name the stack pointer have five bits. -/
def FiveBits : Instruction V → Prop
  | .dpImm _ _ rd _ _ _ | .dpRegExt _ _ rd _ _ _ _ | .logImm _ _ rd _ _ _ => rd < 32
  | .ldSt _ _ rn _ _ _ | .ldrSignExtended _ rn _ _ _ _ | .fpLdSt _ _ rn _ _ _ _
  | .ldStPair _ _ _ _ rn _ _ | .fpLdStPair _ _ _ _ rn _ _ _ => rn < 32
  | _ => True

/-- Every instruction a decoder returns has a property. -/
structure Yields (P : Instruction V → Prop) (e : Except EmuError (Instruction V)) : Prop where
  of_ok : ∀ i, e = .ok i → P i

variable {P : Instruction V → Prop}

theorem yields_ok {i : Instruction V} (h : P i) : Yields P (.ok i) := by
  constructor
  rintro j ⟨⟩
  exact h

theorem yields_error (e : EmuError) : Yields P (.error e) := ⟨fun _ h => nomatch h⟩

theorem yields_unknown (w : BitVec 32) : Yields P (unknown w) := yields_error _

theorem yields_ite {c : Prop} [Decidable c] {e e' : Except EmuError (Instruction V)}
    (h : Yields P e) (h' : Yields P e') : Yields P (if c then e else e') := by
  by_cases hc : c
  · rwa [if_pos hc]
  · rwa [if_neg hc]

theorem yields_bind {α : Type} {x : Except EmuError α} {f : α → Except EmuError (Instruction V)}
    (h : ∀ a, Yields P (f a)) : Yields P (x >>= f) := by
  cases x with
  | error e => exact yields_error e
  | ok a => exact h a

theorem bits_lt (w : BitVec 32) (lo : Nat) : bits w (lo + 4) lo < 32 := by
  rw [bits, show lo + 4 + 1 - lo = 5 by omega]
  exact Nat.mod_lt _ (by decide)

theorem rd_lt (w : BitVec 32) : rd w < 32 := bits_lt w 0

theorem rn_lt (w : BitVec 32) : rn w < 32 := bits_lt w 5

variable (w : BitVec 32)

theorem decodeDpImmGroup_yields :
    Yields FiveBits (decodeDpImmGroup w : Except EmuError (Instruction V)) := by
  apply yields_ite
  · exact yields_ok trivial
  split
  · exact yields_ok (rd_lt w)
  · simp only [decodeMoveWide]
    apply yields_ite (yields_unknown w)
    split
    · exact yields_ok trivial
    · exact yields_ok trivial
    · exact yields_ok trivial
    · exact yields_unknown w
  · rw [decodeLogicalImm]
    split
    · exact yields_unknown w
    · exact yields_ok (rd_lt w)
  · simp only [decodeBitfield]
    apply yields_ite (yields_unknown w)
    split
    · exact yields_ite (yields_ok trivial) (yields_ok trivial)
    · exact yields_ite (yields_ok trivial) (yields_ite (yields_ok trivial) (yields_ok trivial))
    · exact yields_ok trivial
    · exact yields_unknown w
  · exact yields_ite (yields_unknown w) (yields_ite (yields_ok trivial) (yields_ok trivial))
  · exact yields_unknown w

theorem decodeDpRegGroup_yields :
    Yields FiveBits (decodeDpRegGroup w : Except EmuError (Instruction V)) := by
  rw [decodeDpRegGroup]
  split
  · exact yields_ok trivial
  · exact yields_ite (yields_ite (yields_unknown w)
      (yields_ite (yields_unknown w) (yields_ok (rd_lt w)))) (yields_ok trivial)
  · dsimp only
    apply yields_ite (yields_ok trivial)
    apply yields_ite (yields_ite (yields_unknown w) (yields_ok trivial))
    apply yields_ite (yields_ok trivial)
    apply yields_ite
    · apply yields_ite (yields_unknown w)
      split
      · exact yields_unknown w
      · exact yields_ok trivial
    apply yields_ite (yields_unknown w)
    apply yields_ite (yields_ok trivial)
    split
    · exact yields_ok trivial
    · exact yields_ok trivial
    · exact yields_unknown w
  · apply yields_ite
    · exact yields_ite (yields_ok trivial) (yields_ok trivial)
    apply yields_ite _ (yields_unknown w)
    split
    · exact yields_ok trivial
    · exact yields_unknown w

theorem decodeBranchGroup_yields :
    Yields FiveBits (decodeBranchGroup w : Except EmuError (Instruction V)) := by
  simp only [decodeBranchGroup]
  apply yields_ite (yields_ok trivial)
  apply yields_ite (yields_ok trivial)
  apply yields_ite (yields_ok trivial)
  apply yields_ite (yields_ok trivial)
  apply yields_ite _ (yields_unknown w)
  split
  · exact yields_ok trivial
  · exact yields_ok trivial
  · exact yields_ok trivial
  · exact yields_unknown w

theorem decodeLdstOp_yields (opc : Nat) (size : MemSize) (offset : LdStOffset)
    (mode : IndexMode) :
    Yields FiveBits (decodeLdstOp w opc size offset mode : Except EmuError (Instruction V)) := by
  rw [decodeLdstOp.eq_def]
  split
  · exact yields_ok (rn_lt w)
  · exact yields_ok (rn_lt w)
  · exact yields_ite (yields_unknown w) (yields_ok (rn_lt w))

theorem decodeFpLdstSingle_yields (sizeField : Nat) :
    Yields FiveBits (decodeFpLdstSingle w sizeField : Except EmuError (Instruction V)) := by
  simp only [decodeFpLdstSingle]
  apply yields_ite (yields_unknown w)
  split
  · exact yields_ok (rn_lt w)
  · apply yields_ite
    · exact yields_ite (yields_unknown w) (yields_bind fun _ => yields_ok (rn_lt w))
    split
    · exact yields_unknown w
    · exact yields_ok (rn_lt w)
  · exact yields_unknown w

theorem decodeLdstSingle_yields :
    Yields FiveBits (decodeLdstSingle w : Except EmuError (Instruction V)) := by
  simp only [decodeLdstSingle]
  apply yields_ite (decodeFpLdstSingle_yields w _)
  apply yields_ite (decodeLdstOp_yields w _ _ _ _)
  apply yields_ite _ (yields_unknown w)
  apply yields_ite
  · exact yields_bind fun _ => decodeLdstOp_yields w _ _ _ _
  split
  · exact yields_unknown w
  · exact decodeLdstOp_yields w _ _ _ _

theorem decodeLdstPair_yields :
    Yields FiveBits (decodeLdstPair w : Except EmuError (Instruction V)) := by
  simp only [decodeLdstPair]
  apply yields_ite
  · split
    · exact yields_ok (rn_lt w)
    · exact yields_ok (rn_lt w)
    · exact yields_ok (rn_lt w)
    · exact yields_unknown w
  apply yields_ite (yields_unknown w)
  split
  · exact yields_ok (rn_lt w)
  · exact yields_ok (rn_lt w)
  · exact yields_ok (rn_lt w)
  · exact yields_unknown w

theorem decodeLdrLiteral_yields :
    Yields FiveBits (decodeLdrLiteral w : Except EmuError (Instruction V)) := by
  simp only [decodeLdrLiteral]
  apply yields_ite
  · split
    · exact yields_ok trivial
    · exact yields_ok trivial
    · exact yields_ok trivial
    · exact yields_unknown w
  · exact yields_ite (yields_unknown w) (yields_ok trivial)

theorem decodeLdstGroup_yields (vec : VectorDecoder V) :
    Yields FiveBits (decodeLdstGroup w vec) := by
  simp only [decodeLdstGroup]
  apply yields_ite (decodeLdrLiteral_yields w)
  apply yields_ite (decodeLdstPair_yields w)
  apply yields_ite _ (decodeLdstSingle_yields w)
  split
  · exact yields_ok trivial
  · exact yields_unknown w

/-- What the decoder returns names the stack pointer by 31 alone. -/
theorem decode_yields (vec : VectorDecoder V) : Yields FiveBits (decode vec w) := by
  simp only [decode]
  apply yields_ite (yields_ok trivial)
  apply yields_ite (yields_ok trivial)
  apply yields_ite (yields_ok trivial)
  have hvector : Yields FiveBits ((vec.decodeFpGroup w).map .vector) := by
    cases vec.decodeFpGroup w with
    | error e => exact yields_error e
    | ok v => exact yields_ok trivial
  split
  · exact decodeDpImmGroup_yields w
  · exact decodeDpImmGroup_yields w
  · exact decodeBranchGroup_yields w
  · exact decodeBranchGroup_yields w
  · exact decodeLdstGroup_yields w vec
  · exact decodeLdstGroup_yields w vec
  · exact decodeLdstGroup_yields w vec
  · exact decodeLdstGroup_yields w vec
  · exact decodeDpRegGroup_yields w
  · exact decodeDpRegGroup_yields w
  · exact hvector
  · exact hvector
  · exact yields_unknown w

end Fields

end Frames

end Playground
