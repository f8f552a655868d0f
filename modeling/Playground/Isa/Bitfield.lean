/-
The bitfield moves and EXTR against their definition by masks: what the decoder takes, the
shifts it turns some of them into, and what executing either leaves.
-/
import Playground.Isa.Bitmask
import Playground.Isa.Flags
import Playground.Library.BitMasks

namespace Playground

open Fields (bits)
open BitMasks (InField Move)

namespace Execute

section Fields

variable {sf : Bool} {s r i : Nat}

theorem getLsbD_maskFor (count i : Nat) (hi : i < 64) :
    (maskFor count).getLsbD i = decide (i < count) := by
  unfold maskFor
  split
  · rename_i h
    rw [BitVec.getLsbD_allOnes, decide_eq_true hi, decide_eq_true (by omega)]
  · exact BitRuns.getLsbD_ones (by decide) (by omega) i

/-- Above its top bit a value repeats it. -/
theorem getLsbD_signExtendFrom (value : Word) {top : Nat} (htop : top < 64) (hi : i < 64) :
    (signExtendFrom value top).getLsbD i = value.getLsbD (min i top) := by
  unfold signExtendFrom
  split
  · rw [Nat.min_eq_left (by omega)]
  · rw [BitVec.getLsbD_sshiftRight, decide_eq_false (by omega), Bool.not_false, Bool.true_and]
    by_cases hlow : 63 - top + i < 64
    · have hback : 63 - top + i - (63 - top) = i := by omega
      rw [if_pos hlow, BitVec.getLsbD_shiftLeft, Nat.min_eq_left (by omega),
        decide_eq_true hlow, decide_eq_false (by omega), hback, Bool.not_false, Bool.true_and,
        Bool.true_and]
    · have hback : 64 - 1 - (63 - top) = top := by omega
      rw [if_neg hlow, Nat.min_eq_right (by omega), BitVec.msb_eq_getLsbD_last,
        BitVec.getLsbD_shiftLeft, decide_eq_true (by decide), decide_eq_false (by omega), hback,
        Bool.not_false, Bool.true_and, Bool.true_and]

/-- What a bitfield move writes, of what the source and the destination held. -/
def movedField (op : BitfieldOp) (datasize s r : Nat) (src old : Word) : Word :=
  if r ≤ s then
    let field := (src >>> r) &&& maskFor (s - r + 1)
    match op with
    | .ubfm => field
    | .sbfm => signExtendFrom field (s - r)
    | .bfm => (old &&& ~~~maskFor (s - r + 1)) ||| field
  else
    let placed := (src &&& maskFor (s + 1)) <<< (datasize - r)
    match op with
    | .ubfm => placed
    | .sbfm => signExtendFrom placed (datasize - r + s)
    | .bfm => (old &&& ~~~(maskFor (s + 1) <<< (datasize - r))) ||| placed

/-- The move an instruction stands for. -/
def moveOf : BitfieldOp → Move
  | .sbfm => .signed
  | .bfm => .insert
  | .ubfm => .unsigned

variable {x d : BitVec (width sf)}

theorem getLsbD_widen (x : BitVec (width sf)) (hi : i < width sf) :
    (x.setWidth 64).getLsbD i = x.getLsbD i := by
  rw [BitVec.getLsbD_setWidth, decide_eq_true (Nat.lt_of_lt_of_le hi (width_le sf)), Bool.true_and]

/-- The field brought down, bit by bit. -/
theorem getLsbD_extracted (hrs : r ≤ s) (hs : s < width sf) (hi : i < 64) :
    ((x.setWidth 64 >>> r) &&& maskFor (s - r + 1)).getLsbD i =
      (decide (i ≤ s - r) && x.getLsbD (i + r)) := by
  rw [BitVec.getLsbD_and, getLsbD_maskFor _ i hi, BitVec.getLsbD_ushiftRight]
  by_cases hin : i ≤ s - r
  · rw [getLsbD_widen x (show r + i < width sf by omega), decide_eq_true (by omega),
      decide_eq_true hin, Bool.and_true, Bool.true_and, Nat.add_comm]
  · rw [decide_eq_false (by omega), decide_eq_false hin, Bool.and_false, Bool.false_and]

/-- The field put in place, bit by bit. -/
theorem getLsbD_placed (hs : s < width sf) (hi : i < 64) :
    ((x.setWidth 64 &&& maskFor (s + 1)) <<< (width sf - r)).getLsbD i =
      (decide (width sf - r ≤ i ∧ i - (width sf - r) ≤ s) &&
        x.getLsbD (i - (width sf - r))) := by
  rw [BitVec.getLsbD_shiftLeft, decide_eq_true hi, Bool.true_and, BitVec.getLsbD_and,
    getLsbD_maskFor _ _ (by omega)]
  by_cases hin : width sf - r ≤ i ∧ i - (width sf - r) ≤ s
  · rw [getLsbD_widen x (by omega), decide_eq_false (by omega), decide_eq_true (by omega),
      decide_eq_true hin, Bool.not_false, Bool.true_and, Bool.and_true, Bool.true_and]
  · rw [decide_eq_false hin, Bool.false_and]
    by_cases hlow : i < width sf - r
    · rw [decide_eq_true hlow, Bool.not_true, Bool.false_and]
    · rw [decide_eq_false (show ¬ i - (width sf - r) < s + 1 by omega), Bool.and_false,
        Bool.and_false]

/-- What the executor writes is what the masks select. -/
theorem getLsbD_movedField (op : BitfieldOp) (hs : s < width sf) (hr : r < width sf)
    (hi : i < width sf) :
    (movedField op (width sf) s r (x.setWidth 64) (d.setWidth 64)).getLsbD i =
      if InField (width sf) s r i then x.getLsbD ((i + r) % width sf)
      else (moveOf op).outside x d s r i := by
  have hwidth := width_le sf
  have h64 : i < 64 := by omega
  unfold movedField InField Move.outside BitMasks.reach
  by_cases hrs : r ≤ s
  · simp only [if_pos hrs]
    have hsource : i ≤ s - r → (i + r) % width sf = i + r := fun hin =>
      Nat.mod_eq_of_lt (by omega)
    cases op with
    | ubfm =>
        simp only [moveOf, getLsbD_extracted hrs hs h64]
        by_cases hin : i ≤ s - r
        · simp [hin, hsource hin]
        · simp [hin]
    | sbfm =>
        have htop : s - r < 64 := by omega
        simp only [moveOf, getLsbD_signExtendFrom _ htop h64,
          getLsbD_extracted hrs hs (show min i (s - r) < 64 by omega)]
        by_cases hin : i ≤ s - r
        · simp [hin, hsource hin]
        · have hsign : s - r + r = s := by omega
          simp [hin, Nat.min_eq_right (Nat.le_of_not_le hin), hsign, Nat.lt_of_not_le hin]
    | bfm =>
        simp only [moveOf, BitVec.getLsbD_or, BitVec.getLsbD_and, BitVec.getLsbD_not, h64,
          getLsbD_maskFor, getLsbD_extracted hrs hs h64, getLsbD_widen d hi, Nat.lt_add_one_iff]
        by_cases hin : i ≤ s - r
        · simp [hin, hsource hin]
        · simp [hin]
  · simp only [if_neg hrs]
    have hsource : width sf - r ≤ i ∧ i - (width sf - r) ≤ s →
        (i + r) % width sf = i - (width sf - r) := by
      intro hin
      rw [Nat.mod_eq_sub_mod (by omega), Nat.mod_eq_of_lt (by omega)]
      omega
    cases op with
    | ubfm =>
        simp only [moveOf, getLsbD_placed hs h64]
        by_cases hin : width sf - r ≤ i ∧ i - (width sf - r) ≤ s
        · simp [hin, hsource hin]
        · simp only [if_neg hin, decide_eq_false hin, Bool.false_and]
    | sbfm =>
        have htop : width sf - r + s < 64 := by omega
        simp only [moveOf, getLsbD_signExtendFrom _ htop h64,
          getLsbD_placed hs (show min i (width sf - r + s) < 64 by omega)]
        by_cases hin : width sf - r ≤ i ∧ i - (width sf - r) ≤ s
        · have hmin : min i (width sf - r + s) = i := by omega
          simp [hmin, hin, hsource hin]
        · rw [if_neg hin]
          by_cases habove : s + width sf - r < i
          · have hmin : min i (width sf - r + s) = width sf - r + s := by omega
            simp [hmin, habove]
          · have hlow : ¬ width sf - r ≤ min i (width sf - r + s) := by omega
            simp [hlow, habove]
    | bfm =>
        have hmask : (maskFor (s + 1) <<< (width sf - r)).getLsbD i =
            decide (width sf - r ≤ i ∧ i - (width sf - r) ≤ s) := by
          rw [BitVec.getLsbD_shiftLeft, decide_eq_true h64, Bool.true_and,
            getLsbD_maskFor _ _ (by omega), Bool.decide_and]
          congr 1
          · rw [← decide_not, decide_eq_decide]
            omega
          · rw [decide_eq_decide]
            omega
        simp only [moveOf, BitVec.getLsbD_or, BitVec.getLsbD_and, BitVec.getLsbD_not, h64,
          hmask, getLsbD_placed hs h64, getLsbD_widen d hi]
        by_cases hin : width sf - r ≤ i ∧ i - (width sf - r) ≤ s
        · simp [hin, hsource hin]
        · simp only [if_neg hin, decide_eq_false hin]
          simp

end Fields

section Runs

variable {sf : Bool} {rd rn : Nat}

/-- A register is left with a value cut to the width. -/
theorem sets_writeGpr {value : Word} {out : BitVec (width sf)}
    (h : value.setWidth (width sf) = out) (m : Machine) :
    (do Exec.writeGpr rd sf value
        return .advance : Exec ExecResult).Sets m rd (out.setWidth 64) := by
  rw [← h, ← ite_widthMask]
  exact Exec.sets_writeGpr rd sf value m

theorem sets_execBitfield (op : BitfieldOp) {immr imms : Nat} {out : BitVec (width sf)}
    {m : Machine} (hr : immr < width sf) (hs : imms < width sf)
    (h : (movedField op (width sf) imms immr ((m.regs.values.x rn (width sf)).setWidth 64)
      ((m.regs.values.x rd (width sf)).setWidth 64)).setWidth (width sf) = out) :
    (execBitfield op sf rd rn immr imms).Sets m rd (out.setWidth 64) := by
  have hsize : (if sf then 64 else 32) = width sf := by cases sf <;> rfl
  unfold execBitfield
  simp only [hsize, Nat.mod_eq_of_lt hr, Nat.mod_eq_of_lt hs]
  apply Exec.Sets.of_bind (Exec.reads_readGpr rn sf m)
  intro r hvalues
  rw [gprValue_eq]
  unfold movedField at h
  have hold : r.gprValue rd sf = (m.regs.values.x rd (width sf)).setWidth 64 := by
    rw [gprValue_eq, hvalues]
  by_cases hrs : immr ≤ imms
  · simp only [if_pos hrs] at h ⊢
    cases op with
    | ubfm => exact sets_writeGpr h _
    | sbfm => exact sets_writeGpr h _
    | bfm =>
        apply Exec.Sets.of_bind (Exec.reads_readGpr rd sf _)
        intro r' _
        rw [hold]
        exact sets_writeGpr h _
  · simp only [if_neg hrs] at h ⊢
    cases op with
    | ubfm => exact sets_writeGpr h _
    | sbfm => exact sets_writeGpr h _
    | bfm =>
        apply Exec.Sets.of_bind (Exec.reads_readGpr rd sf _)
        intro r' _
        rw [hold]
        exact sets_writeGpr h _

theorem sets_shiftAlias (shift : ShiftType) (amount : Nat) {out : BitVec (width sf)} {m : Machine}
    (h : shiftedOperand (m.regs.values.x rn (width sf)) amount shift = out) :
    (execLogReg .orr sf rd 31 rn shift amount false false).Sets m rd (out.setWidth 64) := by
  unfold execLogReg
  apply Exec.Sets.of_bind (Exec.reads_readGpr 31 sf m)
  intro r hvalues
  apply Exec.Sets.of_bind (Exec.reads_readGpr rn sf _)
  intro r' _
  have hzero : m.regs.gprValue 31 sf = 0 := by
    unfold RegisterFile.gprValue
    simp
  have hsource : r.gprValue rn sf = (m.regs.values.x rn (width sf)).setWidth 64 := by
    rw [gprValue_eq, hvalues]
  have hor : ∀ v : Word, logical .orr 0 v = v := fun v => BitVec.zero_or
  simp only [hzero, hsource, Bool.false_eq_true, if_false, hor]
  apply sets_writeGpr
  rw [and_widthMask, setWidth_widen, setWidth_applyShift, setWidth_widen]
  exact h

theorem getLsbD_widenTwice (x : BitVec (width sf)) (j : Nat) :
    ((x.setWidth 64).setWidth 128).getLsbD j = x.getLsbD j := by
  have hwidth := width_le sf
  rw [BitVec.getLsbD_setWidth, BitVec.getLsbD_setWidth]
  by_cases hin : j < width sf
  · rw [decide_eq_true (show j < 128 by omega), decide_eq_true (show j < 64 by omega),
      Bool.true_and, Bool.true_and]
  · rw [BitVec.getLsbD_of_ge x j (by omega), Bool.and_false, Bool.and_false]

/-- The pair of two registers, shifted and cut, is the extraction. -/
theorem setWidth_pair (high low : BitVec (width sf)) {lsb : Nat} (hlsb : lsb < width sf) :
    (((((high.setWidth 64).setWidth 128 <<< width sf) ||| (low.setWidth 64).setWidth 128) >>>
      lsb : BitVec 128).setWidth 64).setWidth (width sf) = BitMasks.extract high low lsb := by
  have hwidth := width_le sf
  apply BitVec.eq_of_getLsbD_eq
  intro i hi
  have hj : lsb + i < 128 := by omega
  rw [BitMasks.getLsbD_extract high low hi, BitVec.getLsbD_setWidth, BitVec.getLsbD_setWidth,
    BitVec.getLsbD_ushiftRight, BitVec.getLsbD_or, BitVec.getLsbD_shiftLeft, getLsbD_widenTwice,
    getLsbD_widenTwice, decide_eq_true hi, decide_eq_true (show i < 64 by omega),
    decide_eq_true hj]
  simp only [Bool.true_and]
  by_cases hlow : lsb + i < width sf
  · rw [if_pos hlow, decide_eq_true hlow, Bool.not_true, Bool.false_and, Bool.false_or]
  · rw [if_neg hlow, decide_eq_false hlow, BitVec.getLsbD_of_ge low _ (by omega), Bool.not_false,
      Bool.true_and, Bool.or_false]

theorem sets_execExtr {rm lsb : Nat} (hlsb : lsb < width sf) (m : Machine) :
    (execExtr sf rd rn rm lsb).Sets m rd
      ((BitMasks.extract (m.regs.values.x rn (width sf)) (m.regs.values.x rm (width sf))
        lsb).setWidth 64) := by
  have hsize : (if sf then 64 else 32) = width sf := by cases sf <;> rfl
  unfold execExtr
  simp only [hsize]
  apply Exec.Sets.of_bind (Exec.reads_readGpr rn sf m)
  intro r hvalues
  apply Exec.Sets.of_bind (Exec.reads_readGpr rm sf _)
  intro r' _
  have hlow : r.gprValue rm sf = (m.regs.values.x rm (width sf)).setWidth 64 := by
    rw [gprValue_eq, hvalues]
  rw [gprValue_eq, hlow]
  exact sets_writeGpr (setWidth_pair _ _ hlsb) _

end Runs

end Execute

namespace Decode

variable {V : Type} {w : BitVec 32}

/-- The words of SBFM, BFM and UBFM. -/
def BitfieldSpace (w : BitVec 32) : Prop := bits w 28 23 = 0b100110

/-- The words of EXTR. -/
def ExtractSpace (w : BitVec 32) : Prop := bits w 30 23 = 0b00100111 ∧ bit w 21 = 0

/-- The combinations the architecture reserves. -/
def Reserved (w : BitVec 32) : Prop :=
  sf w ≠ flag w 22 ∨ (sf w = false ∧ 32 ≤ bits w 15 10) ∨
    BitfieldSpace w ∧ (sf w = false ∧ 32 ≤ bits w 21 16 ∨ bits w 30 29 = 0b11)

/-- The move of an opc field. -/
def a64Move : Nat → Option Move
  | 0b00 => some .signed
  | 0b01 => some .insert
  | 0b10 => some .unsigned
  | _ => none

/-- What a word leaves in its destination, by its definition. -/
def a64Bitfield (w : BitVec 32) (r : RegisterValues) : Option (BitVec (width (sf w))) :=
  if bits w 28 23 = 0b100110 then
    (a64Move (bits w 30 29)).bind fun move =>
      move.apply (flag w 22) (w.extractLsb' 10 6) (w.extractLsb' 16 6)
        (r.x (rn w) (width (sf w))) (r.x (rd w) (width (sf w)))
  else some (BitMasks.extract (r.x (rn w) (width (sf w))) (r.x (rm w) (width (sf w)))
    (bits w 15 10))

theorem toNat_imms (w : BitVec 32) : (w.extractLsb' 10 6).toNat = bits w 15 10 := by
  rw [BitVec.extractLsb'_toNat, Nat.shiftRight_eq_div_pow]
  rfl

theorem toNat_immr (w : BitVec 32) : (w.extractLsb' 16 6).toNat = bits w 21 16 := by
  rw [BitVec.extractLsb'_toNat, Nat.shiftRight_eq_div_pow]
  rfl

/-- Fields that are not reserved fit their width. -/
theorem whole_of_fields (hn : sf w = flag w 22)
    (hfields : ¬ (sf w = false ∧ (32 ≤ bits w 21 16 ∨ 32 ≤ bits w 15 10))) :
    BitMasks.Whole (width (sf w)) (flag w 22) (w.extractLsb' 10 6) (w.extractLsb' 16 6) := by
  rw [← hn]
  cases hsf : sf w with
  | true => exact BitMasks.whole_sixtyFour _ _
  | false =>
      simp only [hsf, true_and, not_or, not_le] at hfields
      apply BitMasks.whole_thirtyTwo
      · rw [toNat_imms]
        exact hfields.2
      · rw [toNat_immr]
        exact hfields.1

theorem decode_bitfieldSpace (vec : VectorDecoder V) (h : BitfieldSpace w) :
    decode vec w = decodeBitfield w := by
  unfold BitfieldSpace at h
  have hgroup : bits w 28 26 = 4 := by
    simp only [bits] at h ⊢
    omega
  have hadr : bits w 28 24 ≠ 0b10000 := by
    simp only [bits] at h ⊢
    omega
  have hclass : bits w 25 23 = 0b110 := by
    simp only [bits] at h ⊢
    omega
  rw [decode_dpImmGroup vec hgroup, decodeDpImmGroup, if_neg hadr, hclass]
  rfl

theorem decode_extractSpace (vec : VectorDecoder V) (h : ExtractSpace w) :
    decode vec w = decodeExtract w := by
  obtain ⟨h, -⟩ := h
  have hgroup : bits w 28 26 = 4 := by
    simp only [bits] at h ⊢
    omega
  have hadr : bits w 28 24 ≠ 0b10000 := by
    simp only [bits] at h ⊢
    omega
  have hclass : bits w 25 23 = 0b111 := by
    simp only [bits] at h ⊢
    omega
  rw [decode_dpImmGroup vec hgroup, decodeDpImmGroup, if_neg hadr, hclass]
  rfl

/-- A word does what its definition says: decoded, it leaves that in its destination, and
changes no other register. -/
def Follows (V : Type) (w : BitVec 32) (instr : Instruction V) : Prop :=
  ∀ (vector : V → Exec ExecResult) (m : Machine), ∃ out,
    a64Bitfield w m.regs.values = some out ∧
      (execute vector instr).Sets m (rd w) (out.setWidth 64)

section Moves

variable {op : BitfieldOp} {move : Move}

theorem a64Bitfield_move (hspace : BitfieldSpace w) (hopc : a64Move (bits w 30 29) = some move)
    (r : RegisterValues) :
    a64Bitfield w r = move.apply (flag w 22) (w.extractLsb' 10 6) (w.extractLsb' 16 6)
      (r.x (rn w) (width (sf w))) (r.x (rd w) (width (sf w))) := by
  unfold BitfieldSpace at hspace
  unfold a64Bitfield
  rw [if_pos hspace, hopc]
  rfl

/-- The words kept as moves follow their definition. -/
theorem follows_move (hspace : BitfieldSpace w)
    (hopc : a64Move (bits w 30 29) = some (Execute.moveOf op))
    (hwhole : BitMasks.Whole (width (sf w)) (flag w 22) (w.extractLsb' 10 6)
      (w.extractLsb' 16 6)) :
    Follows V w (.bitfield op (sf w) (rd w) (rn w) (bits w 21 16) (bits w 15 10)) := by
  intro vector m
  obtain ⟨out, happly, hbits⟩ := hwhole.exists_apply (Execute.moveOf op)
    (m.regs.values.x (rn w) (width (sf w))) (m.regs.values.x (rd w) (width (sf w)))
  have hr := hwhole.immr_lt
  have hs := hwhole.imms_lt
  rw [toNat_immr] at hr hbits
  rw [toNat_imms] at hs hbits
  refine ⟨out, (a64Bitfield_move hspace hopc _).trans happly, ?_⟩
  apply Execute.sets_execBitfield op hr hs
  apply BitVec.eq_of_getLsbD_eq
  intro i hi
  rw [BitVec.getLsbD_setWidth, decide_eq_true hi, Bool.true_and,
    Execute.getLsbD_movedField op hs hr hi, hbits i hi]

/-- The words turned into shifts follow their definition. -/
theorem follows_shift (hspace : BitfieldSpace w) (hopc : a64Move (bits w 30 29) = some move)
    {shift : ShiftType} {amount : Nat}
    (h : ∀ src dst : BitVec (width (sf w)),
      move.apply (flag w 22) (w.extractLsb' 10 6) (w.extractLsb' 16 6) src dst =
        some (shiftedOperand src amount shift)) :
    Follows V w (shiftAlias w shift amount) := by
  intro vector m
  exact ⟨_, (a64Bitfield_move hspace hopc _).trans (h _ _),
    Execute.sets_shiftAlias shift amount rfl⟩

theorem bits_opc (w : BitVec 32) : bits w 30 29 = 0 ∨ bits w 30 29 = 1 ∨ bits w 30 29 = 2 ∨
    bits w 30 29 = 3 := by
  have hlt : bits w 30 29 < 4 := Nat.mod_lt _ (by decide)
  omega

/-- What the decoder takes of the moves follows its definition. -/
theorem follows_of_decodeBitfield (hspace : BitfieldSpace w) {instr : Instruction V}
    (h : decodeBitfield w = .ok instr) : Follows V w instr := by
  unfold decodeBitfield at h
  simp only at h
  split at h
  · cases h
  · rename_i hvalid
    rw [not_or, not_not] at hvalid
    have hwhole := whole_of_fields hvalid.1 hvalid.2
    have hsize : (if sf w = true then 64 else 32) = width (sf w) := by cases sf w <;> rfl
    have hr := hwhole.immr_lt
    rw [toNat_immr] at hr
    rw [hsize] at h
    rcases bits_opc w with hopc | hopc | hopc | hopc
    · rw [hopc] at h
      have hmove : a64Move (bits w 30 29) = some .signed := by rw [hopc]; rfl
      simp only at h
      split at h
      · rename_i hlast
        cases h
        apply follows_shift hspace hmove
        intro src dst
        rw [hwhole.signed_last (by rw [toNat_imms, hlast]), toNat_immr, shiftedOperand,
          Nat.mod_eq_of_lt hr]
      · cases h
        exact follows_move hspace hmove hwhole
    · rw [hopc] at h
      cases h
      exact follows_move hspace (by rw [hopc]; rfl) hwhole
    · rw [hopc] at h
      have hmove : a64Move (bits w 30 29) = some .unsigned := by rw [hopc]; rfl
      simp only at h
      split at h
      · rename_i hlast
        cases h
        apply follows_shift hspace hmove
        intro src dst
        rw [hwhole.unsigned_last (by rw [toNat_imms, hlast]), toNat_immr, shiftedOperand,
          Nat.mod_eq_of_lt hr]
      · split at h
        · rename_i hnext
          cases h
          apply follows_shift hspace hmove
          intro src dst
          rw [hwhole.unsigned_next (by rw [toNat_imms, toNat_immr, hnext.2]), toNat_immr,
            shiftedOperand, Nat.mod_eq_of_lt (by omega)]
        · cases h
          exact follows_move hspace hmove hwhole
    · rw [hopc] at h
      cases h

theorem decodeBitfield_rejects :
    (∃ e, decodeBitfield (V := V) w = .error e) ↔
      sf w ≠ flag w 22 ∨ (sf w = false ∧ (32 ≤ bits w 21 16 ∨ 32 ≤ bits w 15 10)) ∨
        bits w 30 29 = 0b11 := by
  unfold decodeBitfield
  simp only
  split
  · rename_i hreserved
    constructor
    · intro _
      rcases hreserved with h | h
      · exact .inl h
      · exact .inr (.inl h)
    · exact fun _ => ⟨_, rfl⟩
  · rename_i hvalid
    rw [not_or] at hvalid
    have hsize : (if sf w = true then 64 else 32) = width (sf w) := by cases sf w <;> rfl
    rw [hsize]
    rcases bits_opc w with hopc | hopc | hopc | hopc
    · rw [hopc]
      simp only
      split <;> simp [hvalid]
    · rw [hopc]
      simp [hvalid]
    · rw [hopc]
      simp only
      split
      · simp [hvalid]
      · split <;> simp [hvalid]
    · rw [hopc]
      simp [unknown]

end Moves

section Extractions

/-- What the decoder takes of EXTR follows its definition, a rotation too. -/
theorem follows_of_decodeExtract (hspace : ExtractSpace w) {instr : Instruction V}
    (h : decodeExtract w = .ok instr) : Follows V w instr := by
  have hclass : bits w 28 23 ≠ 0b100110 := by
    have hfixed := hspace.1
    simp only [bits] at hfixed ⊢
    omega
  have hdef : ∀ r : RegisterValues, a64Bitfield w r =
      some (BitMasks.extract (r.x (rn w) (width (sf w))) (r.x (rm w) (width (sf w)))
        (bits w 15 10)) := by
    intro r
    unfold a64Bitfield
    rw [if_neg hclass]
  unfold decodeExtract at h
  simp only at h
  split at h
  · cases h
  · rename_i hvalid
    have hlsb : bits w 15 10 < width (sf w) := by
      have hlt : bits w 15 10 < 64 := Nat.mod_lt _ (by decide)
      cases hsf : sf w with
      | true => exact hlt
      | false =>
          by_contra hge
          exact hvalid (.inr (.inr (.inr ⟨hsf, Nat.le_of_not_lt hge⟩)))
    split at h
    · cases h
      exact fun vector m => ⟨_, hdef _, Execute.sets_execExtr hlsb m⟩
    · rename_i hsame
      rw [not_not] at hsame
      cases h
      intro vector m
      refine ⟨_, hdef _, Execute.sets_shiftAlias .ror (bits w 15 10) ?_⟩
      rw [hsame, BitMasks.extract_self _ hlsb, shiftedOperand, Nat.mod_eq_of_lt hlsb]

theorem decodeExtract_rejects (hspace : ExtractSpace w) :
    (∃ e, decodeExtract (V := V) w = .error e) ↔
      sf w ≠ flag w 22 ∨ (sf w = false ∧ 32 ≤ bits w 15 10) := by
  have hop : bits w 30 29 = 0 := by
    have hfixed := hspace.1
    simp only [bits] at hfixed ⊢
    omega
  unfold decodeExtract
  simp only [hop, hspace.2, ne_eq, not_true_eq_false, false_or]
  split
  · rename_i hreserved
    exact ⟨fun _ => hreserved, fun _ => ⟨_, rfl⟩⟩
  · rename_i hvalid
    constructor
    · rintro ⟨e, he⟩
      split at he <;> cases he
    · exact fun h => absurd h hvalid

end Extractions

/-- Of the words of SBFM, BFM, UBFM and EXTR the decoder rejects exactly the reserved
combinations, and what it takes another word for leaves what the masks define. -/
theorem decode_follows (vec : VectorDecoder V) (hspace : BitfieldSpace w ∨ ExtractSpace w) :
    ((∃ e, decode vec w = .error e) ↔ Reserved w) ∧
      ∀ instr, decode vec w = .ok instr → Follows V w instr := by
  rcases hspace with hspace | hspace
  · rw [decode_bitfieldSpace vec hspace]
    refine ⟨?_, fun instr h => follows_of_decodeBitfield hspace h⟩
    rw [decodeBitfield_rejects, Reserved]
    tauto
  · rw [decode_extractSpace vec hspace]
    refine ⟨?_, fun instr h => follows_of_decodeExtract hspace h⟩
    have hclass : ¬ BitfieldSpace w := by
      have hfixed := hspace.1
      unfold BitfieldSpace
      simp only [bits] at hfixed ⊢
      omega
    rw [decodeExtract_rejects hspace, Reserved]
    tauto

/-- `sbfx x0, x1, #4, #8` is taken for what it is. -/
theorem decode_follows_sbfx : Follows Empty 0x93442C20 (.bitfield .sbfm true 0 1 4 11) := by
  let vec : VectorDecoder Empty :=
    ⟨fun _ => .error (.runtimeError "no vector unit"), fun _ => none⟩
  have hspace : BitfieldSpace 0x93442C20 := by
    unfold BitfieldSpace
    decide
  exact (decode_follows vec (.inl hspace)).2 _ rfl

end Decode

end Playground
