/-
Bitfield moves by the masks that define them: a run of ones rotated to where the field comes
from, a run of ones where it goes, each repeated over the width.  A move of one element per
width is also an extraction or an insertion, bit for bit.
-/
import Mathlib.Tactic

namespace BitMasks

variable {m s r i : Nat}

/-- The low `count` of `e` bits set. -/
def ones (count e : Nat) : BitVec e := BitVec.ofNat e (2 ^ count - 1)

def repeated {e : Nat} (element : BitVec e) (m : Nat) : BitVec m :=
  (element.replicate (m / e)).setWidth m

/-- The masks that three fields stand for, the rotated one first.  The highest set bit of `immN`
over the complement of `imms` says the element size; an element has two bits at least. -/
def decodeBitMasks (m : Nat) (immN : Bool) (imms immr : BitVec 6) :
    Option (BitVec m × BitVec m) :=
  let len := Nat.log2 (BitVec.ofBool immN ++ ~~~imms).toNat
  if len < 1 then none
  else
    let levels := ones len 6
    let s := (imms &&& levels).toNat
    let r := (immr &&& levels).toNat
    let d := (((s : Int) - r) % 2 ^ len).toNat
    let welem := ones (s + 1) (2 ^ len)
    let telem := ones (d + 1) (2 ^ len)
    some (repeated (welem.rotateRight r) m, repeated telem m)

/-- The three moves: what is outside the field becomes its sign, stays, or becomes zero. -/
inductive Move
  | signed
  | insert
  | unsigned
deriving DecidableEq, Repr

/-- What a move leaves, of the source and of what the destination held. -/
def Move.result (move : Move) (wmask tmask : BitVec m) (s r : Nat) (src dst : BitVec m) :
    BitVec m :=
  let rotated := src.rotateRight r
  match move with
  | .signed =>
      let top := if src.getLsbD s then BitVec.allOnes m else 0
      (top &&& ~~~tmask) ||| (rotated &&& wmask &&& tmask)
  | .insert =>
      let bot := (dst &&& ~~~wmask) ||| (rotated &&& wmask)
      (dst &&& ~~~tmask) ||| (bot &&& tmask)
  | .unsigned => rotated &&& wmask &&& tmask

def Move.apply (move : Move) (immN : Bool) (imms immr : BitVec 6) (src dst : BitVec m) :
    Option (BitVec m) :=
  (decodeBitMasks m immN imms immr).map fun (wmask, tmask) =>
    move.result wmask tmask imms.toNat immr.toNat src dst

/-- `m` bits of a pair, from bit `lsb` on. -/
def extract (high low : BitVec m) (lsb : Nat) : BitVec m := (high ++ low).extractLsb' lsb m

section Bits

theorem getLsbD_ones (count e i : Nat) :
    (ones count e).getLsbD i = (decide (i < e) && decide (i < count)) := by
  rw [ones, BitVec.getLsbD_ofNat, Nat.testBit_two_pow_sub_one]

theorem getLsbD_rotateRight_of_lt {x : BitVec m} (hr : r < m) (hi : i < m) :
    (x.rotateRight r).getLsbD i = x.getLsbD ((i + r) % m) := by
  rw [BitVec.getLsbD_rotateRight, Nat.mod_eq_of_lt hr]
  by_cases hlow : i < m - r
  · rw [decide_eq_true hlow, cond_true, Nat.mod_eq_of_lt (by omega), Nat.add_comm]
  · have hwrap : (i + r) % m = i - (m - r) := by
      rw [Nat.mod_eq_sub_mod (by omega), Nat.mod_eq_of_lt (by omega)]
      omega
    rw [decide_eq_false hlow, cond_false, hwrap, decide_eq_true hi, Bool.true_and]

/-- An element of the whole width is repeated once. -/
theorem repeated_self (element : BitVec m) (hpos : 0 < m) : repeated element m = element := by
  apply BitVec.eq_of_getLsbD_eq
  intro i hi
  rw [repeated, BitVec.getLsbD_setWidth, BitVec.getLsbD_replicate, Nat.div_self hpos,
    Nat.mod_eq_of_lt hi]
  simp [hi]

end Bits

section Whole

/-- How far the field reaches from where it goes, around the width. -/
def reach (m s r : Nat) : Nat := if r ≤ s then s - r else s + m - r

/-- Fields whose element is the whole width. -/
structure Whole (m : Nat) (immN : Bool) (imms immr : BitVec 6) : Prop where
  size : m = 2 ^ Nat.log2 (BitVec.ofBool immN ++ ~~~imms).toNat
  two_le : 2 ≤ m
  le : m ≤ 64
  imms_lt : imms.toNat < m
  immr_lt : immr.toNat < m

variable {immN : Bool} {imms immr : BitVec 6}

theorem reach_eq (hs : s < m) (hr : r < m) : (((s : Int) - r) % m).toNat = reach m s r := by
  unfold reach
  split
  · rw [Int.emod_eq_of_lt (by omega) (by omega)]
    omega
  · have hadd : ((s : Int) - r) % m = ((s : Int) - r + m) % m := by simp
    rw [hadd, Int.emod_eq_of_lt (by omega) (by omega)]
    omega

/-- A field smaller than the element is its own low bits. -/
theorem and_levels {len : Nat} {x : BitVec 6} (hx : x.toNat < 2 ^ len) :
    (x &&& ones len 6).toNat = x.toNat := by
  have hsame : x &&& ones len 6 = x := by
    apply BitVec.eq_of_getLsbD_eq
    intro i hi
    rw [BitVec.getLsbD_and, getLsbD_ones, decide_eq_true hi, Bool.true_and]
    by_cases hlow : i < len
    · simp [hlow]
    · have hbit : x.getLsbD i = false := by
        apply Nat.testBit_lt_two_pow
        exact Nat.lt_of_lt_of_le hx (Nat.pow_le_pow_right (by decide) (by omega))
      simp [hbit]
  rw [hsame]

theorem Whole.exists_masks (h : Whole m immN imms immr) :
    ∃ wmask tmask, decodeBitMasks m immN imms immr = some (wmask, tmask) ∧
      (∀ i < m, wmask.getLsbD i = decide ((i + immr.toNat) % m ≤ imms.toNat)) ∧
      ∀ i < m, tmask.getLsbD i = decide (i ≤ reach m imms.toNat immr.toNat) := by
  obtain ⟨hsize, htwo, hle, hs, hr⟩ := h
  unfold decodeBitMasks
  simp only
  generalize Nat.log2 (BitVec.ofBool immN ++ ~~~imms).toNat = len at hsize
  subst hsize
  have hlen : ¬ len < 1 := by
    intro hzero
    have hnone : len = 0 := by omega
    rw [hnone] at htwo
    exact absurd htwo (by decide)
  have hreach := reach_eq hs hr
  push_cast at hreach
  rw [if_neg hlen, and_levels hs, and_levels hr, hreach]
  refine ⟨_, _, rfl, ?_, ?_⟩
  · intro i hi
    rw [repeated_self _ (by omega), getLsbD_rotateRight_of_lt hr hi, getLsbD_ones,
      decide_eq_true (Nat.mod_lt _ (by omega)), Bool.true_and, decide_eq_decide]
    omega
  · intro i hi
    rw [repeated_self _ (by omega), getLsbD_ones, decide_eq_true hi, Bool.true_and,
      decide_eq_decide]
    omega

/-- Whether bit `i` of what a move leaves is one of the field. -/
def InField (m s r i : Nat) : Prop := if r ≤ s then i ≤ s - r else m - r ≤ i ∧ i - (m - r) ≤ s

instance : Decidable (InField m s r i) :=
  inferInstanceAs (Decidable (if r ≤ s then _ else _))

theorem inField_of_le (h : r ≤ s) : InField m s r i ↔ i ≤ s - r := by
  unfold InField
  rw [if_pos h]

theorem inField_of_lt (h : s < r) : InField m s r i ↔ m - r ≤ i ∧ i - (m - r) ≤ s := by
  unfold InField
  rw [if_neg (Nat.not_le.mpr h)]

theorem inField_iff (hs : s < m) (hr : r < m) (hi : i < m) :
    InField m s r i ↔ (i + r) % m ≤ s ∧ i ≤ reach m s r := by
  unfold InField reach
  by_cases hcase : r ≤ s
  · rw [if_pos hcase, if_pos hcase]
    constructor
    · intro h
      rw [Nat.mod_eq_of_lt (by omega)]
      omega
    · exact fun h => h.2
  · rw [if_neg hcase, if_neg hcase]
    by_cases hlow : i + r < m
    · rw [Nat.mod_eq_of_lt hlow]
      omega
    · rw [Nat.mod_eq_sub_mod (by omega), Nat.mod_eq_of_lt (by omega)]
      omega

def Move.outside (move : Move) (src dst : BitVec m) (s r i : Nat) : Bool :=
  match move with
  | .signed => decide (reach m s r < i) && src.getLsbD s
  | .insert => dst.getLsbD i
  | .unsigned => false

/-- Masks select the field, wherever they come from. -/
theorem Move.getLsbD_result (move : Move) {wmask tmask src dst : BitVec m} (hs : s < m)
    (hr : r < m) (hi : i < m) (hw : wmask.getLsbD i = decide ((i + r) % m ≤ s))
    (ht : tmask.getLsbD i = decide (i ≤ reach m s r)) :
    (move.result wmask tmask s r src dst).getLsbD i =
      if InField m s r i then src.getLsbD ((i + r) % m) else move.outside src dst s r i := by
  have hrotated := getLsbD_rotateRight_of_lt (x := src) hr hi
  have htop : (if src.getLsbD s then BitVec.allOnes m else 0).getLsbD i = src.getLsbD s := by
    cases src.getLsbD s <;> simp [hi]
  unfold result outside
  simp only [inField_iff hs hr hi]
  cases move with
  | signed =>
      simp only [BitVec.getLsbD_or, BitVec.getLsbD_and, BitVec.getLsbD_not, hi, hw, ht, htop,
        hrotated, decide_true, Bool.true_and]
      by_cases hin : (i + r) % m ≤ s <;> by_cases hreach : i ≤ reach m s r <;>
        simp [hin, hreach, Nat.lt_of_not_le, Nat.not_lt.mpr]
  | insert =>
      simp only [BitVec.getLsbD_or, BitVec.getLsbD_and, BitVec.getLsbD_not, hi, hw, ht,
        hrotated, decide_true, Bool.true_and]
      by_cases hin : (i + r) % m ≤ s <;> by_cases hreach : i ≤ reach m s r <;> simp [hin, hreach]
  | unsigned =>
      simp only [BitVec.getLsbD_and, hw, ht, hrotated]
      by_cases hin : (i + r) % m ≤ s <;> by_cases hreach : i ≤ reach m s r <;> simp [hin, hreach]

theorem Whole.exists_apply (h : Whole m immN imms immr) (move : Move) (src dst : BitVec m) :
    ∃ out, move.apply immN imms immr src dst = some out ∧
      ∀ i < m, out.getLsbD i = if InField m imms.toNat immr.toNat i
        then src.getLsbD ((i + immr.toNat) % m)
        else move.outside src dst imms.toNat immr.toNat i := by
  obtain ⟨wmask, tmask, hmasks, hw, ht⟩ := h.exists_masks
  refine ⟨_, by rw [Move.apply, hmasks]; rfl, ?_⟩
  intro i hi
  exact move.getLsbD_result h.imms_lt h.immr_lt hi (hw i hi) (ht i hi)

theorem Whole.apply_of_bits (h : Whole m immN imms immr) {move : Move} {src dst out : BitVec m}
    (hbits : ∀ i < m, out.getLsbD i = if InField m imms.toNat immr.toNat i
      then src.getLsbD ((i + immr.toNat) % m)
      else move.outside src dst imms.toNat immr.toNat i) :
    move.apply immN imms immr src dst = some out := by
  obtain ⟨out', happly, hbits'⟩ := h.exists_apply move src dst
  have hsame : out' = out := by
    apply BitVec.eq_of_getLsbD_eq
    intro i hi
    rw [hbits' i hi, hbits i hi]
  rw [happly, hsame]

/-- A signed field that ends at the top bit is an arithmetic shift. -/
theorem Whole.signed_last (h : Whole m immN imms immr) (hs : imms.toNat = m - 1)
    (src dst : BitVec m) :
    Move.signed.apply immN imms immr src dst = some (src.sshiftRight immr.toNat) := by
  have hr := h.immr_lt
  apply h.apply_of_bits
  intro i hi
  have hle : immr.toNat ≤ m - 1 := by omega
  unfold Move.outside reach
  rw [BitVec.getLsbD_sshiftRight, hs, if_pos hle, BitVec.msb_eq_getLsbD_last,
    decide_eq_false (Nat.not_le.mpr hi), Bool.not_false, Bool.true_and]
  by_cases hin : i ≤ m - 1 - immr.toNat
  · rw [if_pos ((inField_of_le hle).mpr hin), if_pos (by omega), Nat.mod_eq_of_lt (by omega),
      Nat.add_comm i]
  · rw [if_neg fun h => hin ((inField_of_le hle).mp h), if_neg (by omega)]
    simp [Nat.lt_of_not_le hin]

/-- An unsigned field that ends at the top bit is a shift to the right. -/
theorem Whole.unsigned_last (h : Whole m immN imms immr) (hs : imms.toNat = m - 1)
    (src dst : BitVec m) :
    Move.unsigned.apply immN imms immr src dst = some (src >>> immr.toNat) := by
  have hr := h.immr_lt
  apply h.apply_of_bits
  intro i hi
  have hle : immr.toNat ≤ m - 1 := by omega
  rw [BitVec.getLsbD_ushiftRight, hs]
  by_cases hin : i ≤ m - 1 - immr.toNat
  · rw [if_pos ((inField_of_le hle).mpr hin), Nat.mod_eq_of_lt (by omega), Nat.add_comm i]
  · rw [if_neg fun h => hin ((inField_of_le hle).mp h), BitVec.getLsbD_of_ge _ _ (by omega)]
    rfl

/-- An unsigned field that ends where it goes to is a shift to the left. -/
theorem Whole.unsigned_next (h : Whole m immN imms immr) (hs : imms.toNat + 1 = immr.toNat)
    (src dst : BitVec m) :
    Move.unsigned.apply immN imms immr src dst = some (src <<< (m - immr.toNat)) := by
  have hr := h.immr_lt
  apply h.apply_of_bits
  intro i hi
  have hlt : imms.toNat < immr.toNat := by omega
  rw [BitVec.getLsbD_shiftLeft, decide_eq_true hi, Bool.true_and]
  by_cases hin : m - immr.toNat ≤ i
  · have hback : i + immr.toNat - m = i - (m - immr.toNat) := by omega
    rw [if_pos ((inField_of_lt hlt).mpr (by omega)), Nat.mod_eq_sub_mod (by omega),
      Nat.mod_eq_of_lt (by omega), hback, decide_eq_false (by omega), Bool.not_false, Bool.true_and]
  · rw [if_neg fun h => hin ((inField_of_lt hlt).mp h).1, decide_eq_true (Nat.lt_of_not_le hin),
      Bool.not_true, Bool.false_and]
    rfl

/-- The fields of a 64-bit move. -/
theorem whole_sixtyFour (imms immr : BitVec 6) : Whole 64 true imms immr := by
  have hsize : ∀ imms : BitVec 6, Nat.log2 (BitVec.ofBool true ++ ~~~imms).toNat = 6 := by
    decide
  exact ⟨by rw [hsize]; rfl, by decide, le_refl 64, imms.isLt, immr.isLt⟩

/-- The fields of a 32-bit move. -/
theorem whole_thirtyTwo {imms immr : BitVec 6} (hs : imms.toNat < 32) (hr : immr.toNat < 32) :
    Whole 32 false imms immr := by
  have hsize : ∀ imms : BitVec 6, imms.toNat < 32 →
      Nat.log2 (BitVec.ofBool false ++ ~~~imms).toNat = 5 := by
    decide
  exact ⟨by rw [hsize imms hs]; rfl, by decide, by decide, hs, hr⟩

theorem getLsbD_extract (high low : BitVec m) {lsb : Nat} (hi : i < m) :
    (extract high low lsb).getLsbD i =
      if lsb + i < m then low.getLsbD (lsb + i) else high.getLsbD (lsb + i - m) := by
  rw [extract, BitVec.getLsbD_extractLsb', BitVec.getLsbD_append, decide_eq_true hi,
    Bool.true_and]

/-- The extraction from a pair of one value is a rotation. -/
theorem extract_self (x : BitVec m) {lsb : Nat} (hlsb : lsb < m) :
    extract x x lsb = x.rotateRight lsb := by
  apply BitVec.eq_of_getLsbD_eq
  intro i hi
  rw [getLsbD_extract x x hi, getLsbD_rotateRight_of_lt hlsb hi, Nat.add_comm]
  by_cases hlow : i + lsb < m
  · rw [if_pos hlow, Nat.mod_eq_of_lt hlow]
  · rw [if_neg hlow, Nat.mod_eq_sub_mod (by omega), Nat.mod_eq_of_lt (by omega)]

end Whole

end BitMasks
