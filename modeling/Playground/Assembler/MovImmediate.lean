/-
`mov` of an immediate.  The assembler tries MOVZ, MOVN and ORR in turn; the word it picks
leaves what was written, and it gives up only on a value that none of the three can leave.
-/
import Playground.Assembler.NegativeImmediate

namespace Playground

open Fields (bits)

section Halfwords

variable {u : Word} {hw val : Nat}

/-- A halfword in its place is sixteen bits of the word. -/
theorem getLsbD_halfword (i : Nat) (hi : i < 64) :
    (BitVec.ofNat 64 val <<< (hw * 16)).getLsbD i =
      (decide (hw * 16 ≤ i) && val.testBit (i - hw * 16)) := by
  rw [BitVec.getLsbD_shiftLeft, BitVec.getLsbD_ofNat, decide_eq_true hi,
    decide_eq_true (show i - hw * 16 < 64 by omega)]
  by_cases h : hw * 16 ≤ i
  · simp [h]
  · simp [h, Nat.lt_of_not_le h]

theorem getLsbD_halfwordMask (i : Nat) (hi : i < 64) :
    ((0xFFFF : Word) <<< (hw * 16)).getLsbD i =
      (decide (hw * 16 ≤ i) && decide (i < hw * 16 + 16)) := by
  have hmask : (0xFFFF : Word) = BitVec.ofNat 64 (2 ^ 16 - 1) := rfl
  rw [hmask, getLsbD_halfword i hi, Nat.testBit_two_pow_sub_one]
  congr 1
  rw [decide_eq_decide]
  omega

theorem outside_halfword_eq_zero_iff :
    u &&& ~~~((0xFFFF : Word) <<< (hw * 16)) = 0 ↔
      u = BitVec.ofNat 64 ((u >>> (hw * 16)).toNat % 65536) <<< (hw * 16) := by
  have hbit : ∀ i < 64, (BitVec.ofNat 64 ((u >>> (hw * 16)).toNat % 65536) <<<
      (hw * 16)).getLsbD i =
        (decide (hw * 16 ≤ i) && (decide (i < hw * 16 + 16) && u.getLsbD i)) := by
    intro i hi
    rw [getLsbD_halfword i hi]
    by_cases h : hw * 16 ≤ i
    · have hmod : (65536 : Nat) = 2 ^ 16 := rfl
      have hback : hw * 16 + (i - hw * 16) = i := by omega
      rw [hmod, Nat.testBit_mod_two_pow, ← BitVec.getLsbD, BitVec.getLsbD_ushiftRight, hback]
      congr 2
      rw [decide_eq_decide]
      omega
    · simp [h]
  constructor
  · intro hzero
    apply BitVec.eq_of_getLsbD_eq
    intro i hi
    have hout := congrArg (BitVec.getLsbD · i) hzero
    simp only [BitVec.getLsbD_and, BitVec.getLsbD_not, hi, decide_true, Bool.true_and,
      getLsbD_halfwordMask i hi] at hout
    rw [hbit i hi]
    by_cases hin : hw * 16 ≤ i ∧ i < hw * 16 + 16
    · simp [hin]
    · rw [← Bool.and_assoc, ← Bool.decide_and, decide_eq_false hin, Bool.false_and]
      rw [← Bool.decide_and, decide_eq_false hin, Bool.not_false, Bool.and_true] at hout
      exact hout.trans BitVec.getLsbD_zero
  · intro heq
    apply BitVec.eq_of_getLsbD_eq
    intro i hi
    have hset := congrArg (BitVec.getLsbD · i) heq
    simp only [hbit i hi] at hset
    rw [BitVec.getLsbD_and, BitVec.getLsbD_not, decide_eq_true hi, Bool.true_and,
      getLsbD_halfwordMask i hi, hset]
    by_cases h : hw * 16 ≤ i
    · by_cases h' : i < hw * 16 + 16
      · simp [h, h']
      · simp [h, h']
    · simp [h]

/-- The sixteen bits of a halfword in its place. -/
theorem halfword_value (hval : val < 2 ^ 16) (hplace : hw * 16 + 16 ≤ 64) :
    ((BitVec.ofNat 64 val <<< (hw * 16)) >>> (hw * 16)).toNat % 65536 = val := by
  have hpow : 2 ^ (hw * 16) * 2 ^ 16 ≤ 2 ^ 64 := by
    rw [← Nat.pow_add]
    exact Nat.pow_le_pow_right (by decide) hplace
  have hpos := Nat.two_pow_pos (hw * 16)
  have hfits : val * 2 ^ (hw * 16) < 2 ^ 64 := by
    calc val * 2 ^ (hw * 16) < 2 ^ 16 * 2 ^ (hw * 16) := Nat.mul_lt_mul_of_pos_right hval hpos
      _ = 2 ^ (hw * 16) * 2 ^ 16 := Nat.mul_comm _ _
      _ ≤ 2 ^ 64 := hpow
  rw [BitVec.toNat_ushiftRight, BitVec.toNat_shiftLeft, BitVec.toNat_ofNat,
    Nat.mod_eq_of_lt (show val < 2 ^ 64 by omega), Nat.shiftLeft_eq, Nat.mod_eq_of_lt hfits,
    Nat.shiftRight_eq_div_pow, Nat.mul_div_cancel _ hpos,
    Nat.mod_eq_of_lt (show val < 65536 from hval)]

end Halfwords

namespace Assembler

/-- The halfword found is the whole value. -/
theorem singleHalfword_some {u : Word} {limit hw val : Nat}
    (h : singleHalfword u limit = some (hw, val)) :
    hw < limit ∧ val < 2 ^ 16 ∧ u = BitVec.ofNat 64 val <<< (hw * 16) := by
  obtain ⟨place, hmem, hfound⟩ := List.exists_of_findSome?_eq_some h
  split at hfound
  · rename_i hzero
    cases hfound
    exact ⟨List.mem_range.mp hmem, Nat.mod_lt _ (by decide),
      outside_halfword_eq_zero_iff.mp hzero⟩
  · cases hfound

/-- A value that is one halfword is found. -/
theorem singleHalfword_none {u : Word} {limit : Nat} (hlimit : limit ≤ 4)
    (h : singleHalfword u limit = none) {hw val : Nat} (hhw : hw < limit)
    (hval : val < 2 ^ 16) : u ≠ BitVec.ofNat 64 val <<< (hw * 16) := by
  intro heq
  have hfound := List.findSome?_eq_none_iff.mp h hw (List.mem_range.mpr hhw)
  split at hfound
  · cases hfound
  · rename_i hzero
    apply hzero
    rw [outside_halfword_eq_zero_iff, heq, halfword_value hval (by omega)]

end Assembler

namespace Decode

variable {V : Type}

open Assembler in
theorem decode_moveWideWord (vec : VectorDecoder V) (neg : Bool) {sf : Bool} {hw imm16 rd : Nat}
    (hhw : hw < if sf then 4 else 2) (himm : imm16 < 2 ^ 16) (hrd : rd < 32) :
    decode vec (moveWideWord sf (if neg then 0b00 else 0b10) hw imm16 rd) =
      .ok (.moveWide (if neg then .movn else .movz) sf rd imm16 hw) := by
  have hsf := Bool.toNat_lt sf
  have hhw4 : hw < 4 := by
    split at hhw <;> omega
  have hopc : (if neg then 0b00 else 0b10) < 4 := by
    split <;> decide
  have hfits : Fields.Fits 32 [(sf.toNat, 31), (if neg then 0b00 else 0b10, 29), (0b100101, 23),
      (hw, 21), (imm16, 5), (rd, 0)] := by
    refine ⟨by decide, by omega, by decide, by omega, by decide, by decide, by decide, by omega,
      by decide, by omega, by decide, by omega, trivial⟩
  have hbits : ∀ hi lo, bits (moveWideWord sf (if neg then 0b00 else 0b10) hw imm16 rd) hi lo =
      (sf.toNat * 2 ^ 31 + ((if neg then 0b00 else 0b10) * 2 ^ 29 + (37 * 2 ^ 23 +
        (hw * 2 ^ 21 + (imm16 * 2 ^ 5 + rd))))) / 2 ^ lo % 2 ^ (hi + 1 - lo) := by
    intro hi lo
    rw [moveWideWord, word, Fields.bits_word hfits]
    simp [Fields.total]
  generalize moveWideWord sf (if neg then 0b00 else 0b10) hw imm16 rd = w at hbits ⊢
  generalize hcode : (if neg then 0b00 else 0b10) = opc at hbits hopc
  rw [decode_dpImmGroup vec (by rw [hbits]; omega)]
  have hadr : bits w 28 24 = 18 := by
    rw [hbits]
    omega
  have hclass : bits w 25 23 = 0b101 := by
    rw [hbits]
    omega
  have hop : bits w 30 29 = opc := by
    rw [hbits]
    omega
  have hsf' : Decode.sf w = sf := by
    have hflag : bits w 31 31 = sf.toNat := by
      rw [hbits]
      omega
    rw [Decode.sf, flag, bit, hflag]
    cases sf <;> rfl
  have hrd' : Decode.rd w = rd := by
    rw [Decode.rd, hbits]
    omega
  have hhw' : bits w 22 21 = hw := by
    rw [hbits]
    omega
  have himm' : bits w 20 5 = imm16 := by
    rw [hbits]
    omega
  have hallowed : ¬ (sf = false ∧ 2 ≤ hw) := by
    rintro ⟨rfl, hle⟩
    simp only [Bool.false_eq_true, if_false] at hhw
    omega
  simp only [decodeDpImmGroup, hadr, hclass, decodeMoveWide, hop, hsf', hrd', hhw', himm',
    if_neg hallowed, ← hcode]
  cases neg <;> rfl

open Assembler in
/-- The word of ORR with a bitmask. -/
theorem decode_orrImm (vec : VectorDecoder V) {sf n : Bool} {immr imms rn rd : Nat} {value : Word}
    (himmr : immr < 64) (himms : imms < 64) (hrn : rn < 32) (hrd : rd < 32)
    (h : decodeBitmaskImm n immr imms sf = some value) :
    decode vec (word [(sf.toNat, 31), (0b01, 29), (0b100100, 23), (n.toNat, 22), (immr, 16),
        (imms, 10), (rn, 5), (rd, 0)]) = .ok (.logImm .orr sf rd rn value false) := by
  have hsf := Bool.toNat_lt sf
  have hn := Bool.toNat_lt n
  have hfits : Fields.Fits 32 [(sf.toNat, 31), (0b01, 29), (0b100100, 23), (n.toNat, 22),
      (immr, 16), (imms, 10), (rn, 5), (rd, 0)] := by
    refine ⟨by decide, by omega, by decide, by decide, by decide, by decide, by decide, by omega,
      by decide, by omega, by decide, by omega, by decide, by omega, by decide, by omega, trivial⟩
  have hbits : ∀ hi lo, bits (word [(sf.toNat, 31), (0b01, 29), (0b100100, 23), (n.toNat, 22),
        (immr, 16), (imms, 10), (rn, 5), (rd, 0)]) hi lo =
      (sf.toNat * 2 ^ 31 + (2 ^ 29 + (36 * 2 ^ 23 + (n.toNat * 2 ^ 22 + (immr * 2 ^ 16 +
        (imms * 2 ^ 10 + (rn * 2 ^ 5 + rd))))))) / 2 ^ lo % 2 ^ (hi + 1 - lo) := by
    intro hi lo
    rw [word, Fields.bits_word hfits]
    simp [Fields.total]
  generalize word [(sf.toNat, 31), (0b01, 29), (0b100100, 23), (n.toNat, 22), (immr, 16),
    (imms, 10), (rn, 5), (rd, 0)] = w at hbits ⊢
  rw [decode_dpImmGroup vec (by rw [hbits]; omega)]
  have hadr : bits w 28 24 = 18 := by
    rw [hbits]
    omega
  have hclass : bits w 25 23 = 0b100 := by
    rw [hbits]
    omega
  have hop : bits w 30 29 = 1 := by
    rw [hbits]
    omega
  have hflags : ∀ (i : Nat) (b : Bool), bits w i i = b.toNat → flag w i = b := by
    intro i b hb
    rw [flag, bit, hb]
    cases b <;> rfl
  have hsf' : Decode.sf w = sf := by
    apply hflags
    rw [hbits]
    omega
  have hn' : flag w 22 = n := by
    apply hflags
    rw [hbits]
    omega
  have hrd' : Decode.rd w = rd := by
    rw [Decode.rd, hbits]
    omega
  have hrn' : Decode.rn w = rn := by
    rw [Decode.rn, hbits]
    omega
  have himmr' : bits w 21 16 = immr := by
    rw [hbits]
    omega
  have himms' : bits w 15 10 = imms := by
    rw [hbits]
    omega
  simp only [decodeDpImmGroup, hadr, hclass, decodeLogicalImm, hop, hsf', hn', hrd', hrn', himmr',
    himms', h, logOp]
  rfl

end Decode

section Widths

/-- What a register of this width holds of a value. -/
def atWidth (sf : Bool) (value : Word) : Word := if sf then value else value &&& 0xFFFFFFFF

theorem getLsbD_atWidth (sf : Bool) (value : Word) (i : Nat) :
    (atWidth sf value).getLsbD i = ((sf || decide (i < 32)) && value.getLsbD i) :=
  Decode.getLsbD_cut sf value i

theorem and_widthMask_eq_atWidth (sf : Bool) (value : Word) :
    value &&& widthMask sf = atWidth sf value := by
  cases sf with
  | true => exact BitVec.and_allOnes
  | false => rfl

@[simp]
theorem atWidth_atWidth (sf : Bool) (value : Word) :
    atWidth sf (atWidth sf value) = atWidth sf value := by
  apply BitVec.eq_of_getLsbD_eq
  intro i hi
  rw [getLsbD_atWidth, getLsbD_atWidth, ← Bool.and_assoc, Bool.and_self]

theorem atWidth_halfword {sf : Bool} {hw val : Nat} (hhw : hw < if sf then 4 else 2)
    (hval : val < 2 ^ 16) :
    atWidth sf (BitVec.ofNat 64 val <<< (hw * 16)) = BitVec.ofNat 64 val <<< (hw * 16) := by
  cases sf with
  | true => rfl
  | false =>
      simp only [Bool.false_eq_true, if_false] at hhw
      apply BitVec.eq_of_getLsbD_eq
      intro i hi
      rw [getLsbD_atWidth, getLsbD_halfword i hi]
      by_cases hlow : i < 32
      · simp [hlow]
      · have hbit : val.testBit (i - hw * 16) = false :=
          Nat.testBit_lt_two_pow (Nat.lt_of_lt_of_le hval
            (Nat.pow_le_pow_right (by decide) (by omega)))
        simp [hbit]

/-- Of two complements at a width, either one gives the other. -/
theorem atWidth_not_eq_iff {sf : Bool} {u v : Word} :
    atWidth sf (~~~u) = atWidth sf v ↔ atWidth sf u = atWidth sf (~~~v) := by
  have hbits : ∀ {u v : Word}, atWidth sf (~~~u) = atWidth sf v →
      atWidth sf u = atWidth sf (~~~v) := by
    intro u v h
    apply BitVec.eq_of_getLsbD_eq
    intro i hi
    have hbit := congrArg (BitVec.getLsbD · i) h
    simp only [getLsbD_atWidth, BitVec.getLsbD_not, hi, decide_true, Bool.true_and] at hbit ⊢
    rcases hin : sf || decide (i < 32) with _ | _
    · rfl
    · simp only [hin, Bool.true_and] at hbit ⊢
      rw [← hbit, Bool.not_not]
  constructor
  · exact hbits
  · intro h
    exact (hbits h.symm).symm

end Widths

namespace Execute

variable {rd : Nat} (h : rd < 31) (sf : Bool)

theorem leaves_writeMasked (value : Word) (m : Machine) :
    (do Exec.writeGpr rd sf (value &&& widthMask sf)
        return .advance : Exec ExecResult).Leaves m ⟨rd, h⟩ (atWidth sf value) := by
  have hcut : atWidth sf (value &&& widthMask sf) = atWidth sf value := by
    rw [and_widthMask_eq_atWidth, atWidth_atWidth]
  rw [← hcut]
  exact Exec.leaves_writeGpr h sf _ m

theorem leaves_movz (imm16 hw : Nat) (m : Machine) :
    (execMoveWide .movz sf rd imm16 hw).Leaves m ⟨rd, h⟩
      (atWidth sf (BitVec.ofNat 64 imm16 <<< (hw * 16))) :=
  Exec.leaves_writeGpr h sf _ m

theorem leaves_movn (imm16 hw : Nat) (m : Machine) :
    (execMoveWide .movn sf rd imm16 hw).Leaves m ⟨rd, h⟩
      (atWidth sf (~~~(BitVec.ofNat 64 imm16 <<< (hw * 16)))) :=
  leaves_writeMasked h sf _ m

theorem leaves_orr (rn : Nat) (imm : Word) (m : Machine) :
    (execLogImm .orr sf rd rn imm false).Leaves m ⟨rd, h⟩
      (atWidth sf (m.regs.gprValue rn sf ||| imm)) := by
  unfold execLogImm
  apply Exec.Leaves.of_bind (Exec.reads_readGpr rn sf m)
  intro r _
  unfold Exec.writeGprOrSp
  simp only [Bool.false_eq_true, if_false, if_neg (Nat.not_le.mpr h)]
  exact leaves_writeMasked h sf _ _

end Execute

namespace Assembler

/-- A text whose first letter is not V is no vector operand. -/
theorem isVecOperand_of_head {s : List Char}
    (h : ∀ c rest, trim s = c :: rest → c.toLower ≠ 'v') : isVecOperand s = false := by
  unfold isVecOperand
  simp only
  split
  · rename_i index tail c rest htake hdrop
    rcases htext : trim s with _ | ⟨first, others⟩
    · rw [htext] at htake
      cases htake
    · rw [htext] at htake
      simp only [lowerAsciiChars, List.map_cons, List.takeWhile_cons] at htake
      split at htake
      · exact absurd (List.cons.inj htake).1 (h first others htext)
      · cases htake
  · rfl

theorem upperChar_of_toLower_v {c : Char} (h : c.toLower = 'v') : upperChar c = ['V'] := by
  rcases toLower_cases h with rfl | rfl <;> decide

theorem isVecOperand_of_register {s : List Char} {line n : Nat} {sf : Bool}
    (h : parseRegister s line = .ok (n, sf)) : isVecOperand s = false := by
  apply isVecOperand_of_head
  intro c rest htext hlower
  have hupper : toUppercase (trim s) = 'V' :: toUppercase rest := by
    rw [htext, toUppercase, List.flatMap_cons, upperChar_of_toLower_v hlower]
    rfl
  unfold parseRegister at h
  simp only [hupper] at h
  split at h
  · rename_i found halias
    unfold regAlias at halias
    obtain ⟨entry, hfind, -⟩ := Option.map_eq_some_iff.mp halias
    have hname := List.find?_some hfind
    have hall : ∀ entry ∈ regAliases, entry.1.head? ≠ some 'v' := by decide
    apply hall entry (List.mem_of_find?_eq_some hfind)
    rw [decide_eq_true_eq] at hname
    rw [hname]
    rfl
  · split at h
    · rename_i heq
      cases heq
    · rename_i heq
      cases heq
    · cases h

theorem isVecOperand_of_immediate {s : List Char} (h : opensImmediate (trim s) = true) :
    isVecOperand s = false := by
  apply isVecOperand_of_head
  intro c rest htext hlower
  rw [htext] at h
  simp only [opensImmediate, Bool.or_eq_true, decide_eq_true_eq] at h
  rcases h with ((rfl | rfl) | rfl) | hdigit
  · cases hlower
  · cases hlower
  · cases hlower
  · rcases toLower_cases hlower with rfl | rfl <;> cases hdigit

theorem encodeMov_immediate (vec : VectorEncoders) {op1 op2 : List Char} {line rd : Nat}
    {sf : Bool} (hrd : parseRegister op1 line = .ok (rd, sf))
    (himm : opensImmediate (trim op2) = true) :
    encodeMov vec [op1, op2] line = encodeMovImm op1 (trim op2) rd sf line := by
  unfold encodeMov
  rw [if_neg (by simp), if_neg]
  · simp only [operand, List.getD_cons_zero, List.getD_cons_succ, hrd, himm, if_true]
    rfl
  · simp [isVecOperand_of_register hrd, isVecOperand_of_immediate himm]

section Single

variable {V : Type} {sf : Bool} {rd : Nat} {imm : Word}

/-- The instructions that can leave an immediate in a register of a width on their own: a
halfword in its place, the complement of one, and a bitmask ORed into a register. -/
inductive SingleMove (sf : Bool) (rd : Nat) : Instruction V → Prop
  | movz {imm16 hw : Nat} (himm : imm16 < 2 ^ 16) (hhw : hw < if sf then 4 else 2) :
      SingleMove sf rd (.moveWide .movz sf rd imm16 hw)
  | movn {imm16 hw : Nat} (himm : imm16 < 2 ^ 16) (hhw : hw < if sf then 4 else 2) :
      SingleMove sf rd (.moveWide .movn sf rd imm16 hw)
  | orr {n : Bool} {immr imms : Nat} {bitmask : Word} (rn : Nat)
      (h : Decode.decodeBitmaskImm n immr imms sf = some bitmask) :
      SingleMove sf rd (.logImm .orr sf rd rn bitmask false)

/-- Whatever the machine holds, the instruction leaves the value in the register. -/
def Produces (vector : V → Exec ExecResult) (instr : Instruction V) (rd : Fin 31)
    (value : Word) : Prop :=
  ∀ m, (execute vector instr).Leaves m rd value

/-- The immediates a register of a width can hold, read as signed or as unsigned. -/
def Representable (sf : Bool) (imm : Word) : Prop :=
  sf = false → -2 ^ 31 ≤ imm.toInt ∧ imm.toInt ≤ 2 ^ 32 - 1

/-- The word decodes to a single move that leaves the immediate, cut to the width. -/
def MovesTo (V : Type) (w : BitVec 32) (sf : Bool) (rd : Fin 31) (imm : Word) : Prop :=
  ∀ vec : VectorDecoder V, ∃ instr, decode vec w = .ok instr ∧ SingleMove sf rd instr ∧
    ∀ vector : V → Exec ExecResult, Produces vector instr rd (atWidth sf imm)

theorem movesTo_movz {hw val : Nat} (hrd : rd < 31) (hhw : hw < if sf then 4 else 2)
    (hval : val < 2 ^ 16) (h : atWidth sf imm = BitVec.ofNat 64 val <<< (hw * 16)) :
    MovesTo V (moveWideWord sf 0b10 hw val rd) sf ⟨rd, hrd⟩ imm := by
  intro vec
  refine ⟨_, Decode.decode_moveWideWord vec false hhw hval (by omega), .movz hval hhw, ?_⟩
  intro vector m
  rw [h, ← atWidth_halfword hhw hval]
  exact Execute.leaves_movz hrd sf val hw m

theorem movesTo_movn {hw val : Nat} (hrd : rd < 31) (hhw : hw < if sf then 4 else 2)
    (hval : val < 2 ^ 16) (h : atWidth sf (~~~imm) = BitVec.ofNat 64 val <<< (hw * 16)) :
    MovesTo V (moveWideWord sf 0b00 hw val rd) sf ⟨rd, hrd⟩ imm := by
  intro vec
  refine ⟨_, Decode.decode_moveWideWord vec true hhw hval (by omega), .movn hval hhw, ?_⟩
  intro vector m
  have hvalue : atWidth sf imm = atWidth sf (~~~(BitVec.ofNat 64 val <<< (hw * 16))) := by
    rw [← atWidth_not_eq_iff, h, atWidth_halfword hhw hval]
  rw [hvalue]
  exact Execute.leaves_movn hrd sf val hw m

theorem movesTo_orr {n : Bool} {immr imms : Nat} (hrd : rd < 31)
    (h : Decode.encodeBitmaskImm (atWidth sf imm) sf = some (n, immr, imms)) :
    MovesTo V (word [(sf.toNat, 31), (0b01, 29), (0b100100, 23), (n.toNat, 22), (immr, 16),
      (imms, 10), (31, 5), (rd, 0)]) sf ⟨rd, hrd⟩ imm := by
  obtain ⟨himmr, himms, hdecode⟩ := Decode.decodeBitmaskImm_of_encode h
  intro vec
  refine ⟨_, Decode.decode_orrImm vec himmr himms (by decide) (by omega) hdecode,
    .orr 31 hdecode, ?_⟩
  intro vector m
  have hzero : m.regs.gprValue 31 sf = 0 := by
    unfold RegisterFile.gprValue
    simp
  have hleft := Execute.leaves_orr hrd sf 31 (atWidth sf imm) m
  have hor : (0 : Word) ||| atWidth sf imm = atWidth sf imm := BitVec.zero_or
  rw [hzero, hor, atWidth_atWidth] at hleft
  exact hleft

/-- The bits that MOVZ is tried on are the register's. -/
theorem atWidth_movPattern {u : Word} (h : movPattern imm sf = some u) :
    atWidth sf imm = atWidth sf u := by
  unfold movPattern at h
  split at h
  · cases h
    rfl
  · split at h
    · cases h
      rename_i hsf _
      have hsf : sf = false := by simpa using fun hsf' => hsf (.inl hsf')
      rw [hsf]
      exact (atWidth_atWidth false imm).symm
    · cases h

/-- A representable immediate has such bits, and they are the register's own. -/
theorem movPattern_of_representable (h : Representable sf imm) (hbig : ¬ imm.toNat ≤ 0xFFFF) :
    movPattern imm sf = some (atWidth sf imm) := by
  unfold movPattern
  cases sf with
  | true => rfl
  | false =>
      obtain ⟨hlow, hhigh⟩ := h rfl
      by_cases hpos : 0 < imm.toInt
      · rw [if_pos (.inr hpos)]
        have hlt : imm.toNat < 2 ^ 32 := by
          have hcond := BitVec.toInt_eq_toNat_cond imm
          split at hcond <;> omega
        congr 1
        apply BitVec.eq_of_toNat_eq
        rw [atWidth, if_neg (by decide), BitVec.toNat_and]
        exact (Nat.and_two_pow_sub_one_of_lt_two_pow hlt).symm
      · rw [if_neg (by simp [hpos]), if_pos hlow]
        rfl

/-- What the assembler gives up on is neither a halfword, nor the complement of one, nor a
bitmask. -/
theorem not_produces_of_rejected {vector : V → Exec ExecResult} (hrd : rd < 31)
    (hmovz : singleHalfword (atWidth sf imm) (if sf then 4 else 2) = none)
    (hmovn : singleHalfword (atWidth sf (~~~imm)) (if sf then 4 else 2) = none)
    (horr : Decode.encodeBitmaskImm (atWidth sf imm) sf = none) {instr : Instruction V}
    (h : SingleMove sf rd instr) : ¬ Produces vector instr ⟨rd, hrd⟩ (atWidth sf imm) := by
  have hlimit : (if sf then 4 else 2) ≤ 4 := by
    split <;> decide
  intro hproduces
  -- a machine whose registers are all zero
  have hleft := hproduces ⟨RegisterFile.new, Memory.new, HeapState.new⟩
  obtain ⟨m', hrun, hvalue⟩ := hleft
  cases h with
  | @movz imm16 hw himm hhw =>
      have hmoved := (Execute.leaves_movz hrd sf imm16 hw _).unique hrun
      rw [hvalue, atWidth_halfword hhw himm] at hmoved
      exact singleHalfword_none hlimit hmovz hhw himm hmoved
  | @movn imm16 hw himm hhw =>
      have hmoved := (Execute.leaves_movn hrd sf imm16 hw _).unique hrun
      rw [hvalue] at hmoved
      have hinverse := atWidth_not_eq_iff.mp hmoved.symm
      rw [atWidth_halfword hhw himm] at hinverse
      exact singleHalfword_none hlimit hmovn hhw himm hinverse.symm
  | @orr n immr imms bitmask rn hdecode =>
      have hmoved := (Execute.leaves_orr hrd sf rn bitmask _).unique hrun
      have hzero : RegisterFile.new.gprValue rn sf = 0 := by
        unfold RegisterFile.gprValue RegisterFile.new
        simp
      have hor : (0 : Word) ||| bitmask = bitmask := BitVec.zero_or
      have hencode := Decode.encodeBitmaskImm_of_decode hdecode
      obtain ⟨t, ht⟩ := Option.isSome_iff_exists.mp hencode
      have hcut := (Decode.cut_of_encodeBitmaskImm ht).1
      rw [hvalue, hzero, hor, atWidth, atWidth, hcut] at hmoved
      rw [atWidth, hmoved, ht] at horr
      cases horr

/-- The values in reach of MOVZ without a shift. -/
theorem encodeMovzk_small {op1 op2 : List Char} {line : Nat}
    (hreg : parseRegister op1 line = .ok (rd, sf)) (himm : parseImmediate op2 line = .ok imm)
    (hsmall : imm.toNat ≤ 0xFFFF) :
    encodeMovzk [op1, op2] 0b10 line = .ok (moveWideWord sf 0b10 0 imm.toNat rd) := by
  unfold encodeMovzk
  simp only [operand, List.getD_cons_zero, List.getD_cons_succ, hreg, himm]
  rw [if_neg (by simp)]
  simp only [bind, Except.bind, if_neg (Nat.not_lt.mpr hsmall)]
  rfl

theorem encodeLogImmFields_some (rn rd line : Nat) {n : Bool} {immr imms : Nat}
    (h : Decode.encodeBitmaskImm (atWidth sf imm) sf = some (n, immr, imms)) :
    encodeLogImmFields rn rd imm sf 0b01 line = .ok (word [(sf.toNat, 31), (0b01, 29),
      (0b100100, 23), (n.toNat, 22), (immr, 16), (imms, 10), (rn, 5), (rd, 0)]) := by
  unfold atWidth at h
  unfold encodeLogImmFields
  simp only [h]

theorem encodeLogImmFields_none (rn rd line : Nat)
    (h : Decode.encodeBitmaskImm (atWidth sf imm) sf = none) :
    ∃ e, encodeLogImmFields rn rd imm sf 0b01 line = .error e := by
  unfold atWidth at h
  unfold encodeLogImmFields
  simp only [h]
  exact ⟨_, rfl⟩

/-- The two ways out of `mov` of an immediate: a word that moves it, or all three given up. -/
theorem encodeMovImm_cases {op1 op2 : List Char} {line : Nat}
    (hreg : parseRegister op1 line = .ok (rd, sf)) (hrd : rd < 31)
    (himm : parseImmediate op2 line = .ok imm) :
    (∃ w, encodeMovImm op1 op2 rd sf line = .ok w ∧ MovesTo V w sf ⟨rd, hrd⟩ imm) ∨
    (∃ e, encodeMovImm op1 op2 rd sf line = .error e) ∧ ¬ imm.toNat ≤ 0xFFFF ∧
      (movPattern imm sf).bind (fun u => singleHalfword u (if sf then 4 else 2)) = none ∧
      singleHalfword (atWidth sf (~~~imm)) (if sf then 4 else 2) = none ∧
      Decode.encodeBitmaskImm (atWidth sf imm) sf = none := by
  unfold encodeMovImm
  simp only [himm, bind, Except.bind]
  by_cases hsmall : imm.toNat ≤ 0xFFFF
  · left
    rw [if_pos hsmall, encodeMovzk_small hreg himm hsmall]
    refine ⟨_, rfl, movesTo_movz hrd (by split <;> decide) (by omega) ?_⟩
    have hself : BitVec.ofNat 64 imm.toNat <<< (0 * 16) = imm := by simp
    have hcut := @atWidth_halfword sf 0 imm.toNat (by split <;> decide) (by omega)
    rw [hself] at hcut ⊢
    exact hcut
  · rw [if_neg hsmall]
    rcases hmovz : (movPattern imm sf).bind fun u => singleHalfword u (if sf then 4 else 2) with
      _ | ⟨hw, val⟩
    · have hmask : ~~~imm &&& (if sf then BitVec.allOnes 64 else 0xFFFFFFFF) =
          atWidth sf (~~~imm) := and_widthMask_eq_atWidth sf (~~~imm)
      simp only [hmask]
      rcases hmovn : singleHalfword (atWidth sf (~~~imm)) (if sf then 4 else 2) with
        _ | ⟨hw, val⟩
      · rcases hencode : Decode.encodeBitmaskImm (atWidth sf imm) sf with _ | ⟨n, immr, imms⟩
        · right
          obtain ⟨e, he⟩ := encodeLogImmFields_none 31 rd line hencode
          rw [he]
          refine ⟨⟨_, rfl⟩, hsmall, ?_⟩
          simp
        · left
          rw [encodeLogImmFields_some 31 rd line hencode]
          exact ⟨_, rfl, movesTo_orr hrd hencode⟩
      · left
        obtain ⟨hhw, hval, hword⟩ := singleHalfword_some hmovn
        exact ⟨_, rfl, movesTo_movn hrd hhw hval hword⟩
    · left
      obtain ⟨u, hpattern, hfound⟩ := Option.bind_eq_some_iff.mp hmovz
      obtain ⟨hhw, hval, hword⟩ := singleHalfword_some hfound
      refine ⟨_, rfl, movesTo_movz hrd hhw hval ?_⟩
      rw [atWidth_movPattern hpattern, hword, atWidth_halfword hhw hval]

end Single

/-- `mov` of an immediate to a register of either width: the word it picks leaves the
immediate, cut to the width, in every machine, and it gives up on an immediate the width can
hold only if no single move of the width leaves it. -/
theorem encodeMov_moves {V : Type} (encoders : VectorEncoders) {op1 op2 : List Char}
    {line rd : Nat} {sf : Bool} {imm : Word} (hreg : parseRegister op1 line = .ok (rd, sf))
    (hrd : rd < 31) (hopens : opensImmediate (trim op2) = true)
    (himm : parseImmediate (trim op2) line = .ok imm) :
    (∀ w, encodeMov encoders [op1, op2] line = .ok w → MovesTo V w sf ⟨rd, hrd⟩ imm) ∧
    (Representable sf imm → ∀ e, encodeMov encoders [op1, op2] line = .error e →
      ∀ (vector : V → Exec ExecResult) (instr : Instruction V), SingleMove sf rd instr →
        ¬ Produces vector instr ⟨rd, hrd⟩ (atWidth sf imm)) := by
  rw [encodeMov_immediate encoders hreg hopens]
  have hcases := @encodeMovImm_cases V sf rd imm op1 (trim op2) line hreg hrd himm
  constructor
  · intro w hw
    rcases hcases with ⟨w', hok, hmoves⟩ | ⟨⟨e, herror⟩, -⟩
    · rw [hw] at hok
      cases hok
      exact hmoves
    · rw [hw] at herror
      cases herror
  · intro hrepresentable e he vector instr hsingle
    rcases hcases with ⟨w', hok, -⟩ | ⟨-, hbig, hmovz, hmovn, horr⟩
    · rw [he] at hok
      cases hok
    · rw [movPattern_of_representable hrepresentable hbig, Option.bind_some] at hmovz
      exact not_produces_of_rejected hrd hmovz hmovn horr hsingle

/-- `mov w3, -2` is MOVN, and no single move leaves 0x123456789 in x0. -/
theorem encodeMov_moves_minusTwo :
    MovesTo Empty (moveWideWord false 0b00 0 1 3) false 3 (-2) ∧
      ∀ (vector : Empty → Exec ExecResult) (instr : Instruction Empty),
        SingleMove true 0 instr → ¬ Produces vector instr 0 (atWidth true 0x123456789) := by
  constructor
  · have hreg : parseRegister ['w', '3'] 1 = .ok (3, false) := by decide
    have himm : parseImmediate (trim ['-', '2']) 1 = .ok (-2) := by decide
    exact (encodeMov_moves scalarEncoders hreg (by decide) (by decide) himm).1 _
      (by decide)
  · have hreg : parseRegister ['x', '0'] 1 = .ok (0, true) := by decide
    have himm : parseImmediate (trim "0x123456789".toList) 1 = .ok 0x123456789 := by decide
    exact (encodeMov_moves scalarEncoders hreg (by decide) (by decide) himm).2
      (fun h => nomatch h)
      (.assemblyError 1 "immediate out of range for MOV (needs MOVZ+MOVK)") (by decide)

end Assembler

end Playground
