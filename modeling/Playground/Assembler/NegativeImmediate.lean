/-
Immediates of the flag-setting adds and subtracts.  A negative one is encoded as the opposite
operation on its magnitude; the word it gives computes what was written, flags included.
-/
import Playground.Isa.Bitmask
import Playground.Isa.Flags
import Playground.Assembler.PlainLoad

namespace Playground

open Fields (bits)

namespace Decode

variable {V : Type}

open Assembler in
/-- The word of a flag-setting add or subtract immediate. -/
theorem decode_addSubImm (vec : VectorDecoder V) {sub sf shift12 : Bool} {imm12 rn rd : Nat}
    (himm : imm12 < 2 ^ 12) (hrn : rn < 32) (hrd : rd < 32) :
    decode vec (word [(sf.toNat, 31), (sub.toNat, 30), (1, 29), (0b10001, 24),
        (shift12.toNat, 22), (imm12, 10), (rn, 5), (rd, 0)]) =
      .ok (.dpImm (if sub then .subs else .adds) sf rd rn imm12 (if shift12 then 12 else 0)) := by
  have hsf := Bool.toNat_lt sf
  have hsub := Bool.toNat_lt sub
  have hshift := Bool.toNat_lt shift12
  have hfits : Fields.Fits 32 [(sf.toNat, 31), (sub.toNat, 30), (1, 29), (0b10001, 24),
      (shift12.toNat, 22), (imm12, 10), (rn, 5), (rd, 0)] := by
    refine ⟨by decide, by omega, by decide, by omega, by decide, by decide, by decide, by decide,
      by decide, by omega, by decide, by omega, by decide, by omega, by decide, by omega, trivial⟩
  have hbits : ∀ hi lo, bits (word [(sf.toNat, 31), (sub.toNat, 30), (1, 29), (0b10001, 24),
        (shift12.toNat, 22), (imm12, 10), (rn, 5), (rd, 0)]) hi lo =
      (sf.toNat * 2 ^ 31 + (sub.toNat * 2 ^ 30 + (2 ^ 29 + (17 * 2 ^ 24 +
        (shift12.toNat * 2 ^ 22 + (imm12 * 2 ^ 10 + (rn * 2 ^ 5 + rd))))))) / 2 ^ lo %
          2 ^ (hi + 1 - lo) := by
    intro hi lo
    rw [word, Fields.bits_word hfits]
    simp [Fields.total]
  generalize word [(sf.toNat, 31), (sub.toNat, 30), (1, 29), (0b10001, 24),
    (shift12.toNat, 22), (imm12, 10), (rn, 5), (rd, 0)] = w at hbits ⊢
  rw [decode_dpImmGroup vec (by rw [hbits]; omega)]
  have hadr : bits w 28 24 = 17 := by
    rw [hbits]
    omega
  have hclass : bits w 25 23 = 0b010 := by
    rw [hbits]
    omega
  have hop : bit w 30 = sub.toNat := by
    rw [bit, hbits]
    omega
  have hs : bit w 29 = 1 := by
    rw [bit, hbits]
    omega
  have hsf' : Decode.sf w = sf := by
    have hflag : bits w 31 31 = sf.toNat := by
      rw [hbits]
      omega
    rw [Decode.sf, flag, bit, hflag]
    cases sf <;> rfl
  have hrd' : Decode.rd w = rd := by
    rw [Decode.rd, hbits]
    omega
  have hrn' : Decode.rn w = rn := by
    rw [Decode.rn, hbits]
    omega
  have himm' : bits w 21 10 = imm12 := by
    rw [hbits]
    omega
  have hshift' : bit w 22 = shift12.toNat := by
    rw [bit, hbits]
    omega
  simp only [decodeDpImmGroup, hadr, hclass, decodeAddSubImm, hop, hs, hsf', hrd', hrn', himm',
    hshift']
  cases sub <;> cases shift12 <;> rfl

end Decode

namespace Assembler

theorem numbered_lt {digits : List Char} {line n : Nat} {wide sf : Bool} {bad none : String}
    (h : (match parseUnsigned 10 256 digits with
      | .none => asmErr line bad
      | some num => if 30 < num then asmErr line none else .ok (num, wide)) = .ok (n, sf)) :
    n < 32 := by
  split at h
  · cases h
  · split at h
    · cases h
    · cases h
      omega

theorem parseRegister_lt {s : List Char} {line n : Nat} {sf : Bool}
    (h : parseRegister s line = .ok (n, sf)) : n < 32 := by
  unfold parseRegister at h
  simp only at h
  split at h
  · rename_i found halias
    cases h
    unfold regAlias at halias
    obtain ⟨entry, hfind, hentry⟩ := Option.map_eq_some_iff.mp halias
    have hmem := List.mem_of_find?_eq_some hfind
    have hall : ∀ entry ∈ regAliases, entry.2.1 < 32 := by decide
    have hlt := hall entry hmem
    rw [hentry] at hlt
    exact hlt
  · split at h
    · exact numbered_lt h
    · exact numbered_lt h
    · cases h

/-- A text of decimal digits is its own trimmed self. -/
theorem trim_digits (n : Nat) : trim (Nat.toDigits 10 n) = Nat.toDigits 10 n := by
  apply trim_plain
  intro c hc
  exact isPlain_digit (Nat.isDigit_of_mem_toDigits (by decide) (by decide) hc)

theorem digitsValue_toDigits (n : Nat) : F64.digitsValue (Nat.toDigits 10 n) = n := by
  have hvalue := Nat.ofDigitChars_ten_toDigits (n := n)
  rw [Nat.ofDigitChars_eq_foldl] at hvalue
  unfold F64.digitsValue
  simpa only [Nat.mul_comm] using hvalue

/-- A positive number prints as digits, the first of them not zero. -/
theorem toDigits_cases {n : Nat} (hn : 0 < n) :
    ∃ c rest, Nat.toDigits 10 n = c :: rest ∧ c.isDigit = true ∧ c ≠ '0' := by
  induction n using Nat.base_induction 10 (by decide) with
  | single m hm =>
      refine ⟨m.digitChar, [], Nat.toDigits_of_lt_base hm, ?_, ?_⟩
      · rw [Nat.isDigit_digitChar]
        simpa using hm
      · rw [ne_eq, Nat.digitChar_eq_zero]
        omega
  | digit m k hk hm ih =>
      obtain ⟨c, rest, htext, hdigit, hzero⟩ := ih hm
      refine ⟨c, rest ++ Nat.toDigits 10 k, ?_, hdigit, hzero⟩
      rw [← Nat.toDigits_append_toDigits (by decide) hm hk, htext]
      rfl

/-- A positive immediate, printed, reads back as itself. -/
theorem parseImmediate_digits {n : Nat} (hn : 0 < n) (hlt : n < 2 ^ 64) (line : Nat) :
    parseImmediate (Nat.toDigits 10 n) line = .ok (BitVec.ofNat 64 n) := by
  obtain ⟨c, rest, htext, hdigit, hzero⟩ := toDigits_cases hn
  have hall : ∀ d ∈ Nat.toDigits 10 n, d.isDigit = true := fun d hd =>
    Nat.isDigit_of_mem_toDigits (by decide) (by decide) hd
  have hparse : parseUnsigned 10 (2 ^ 64) (Nat.toDigits 10 n) = some n := by
    rw [parseUnsigned_of_digits (by simp [htext]) hall, digitsValue_toDigits, if_pos hlt]
  have hne : ∀ d : Char, d.isDigit = false → c ≠ d := by
    rintro d hd rfl
    rw [hdigit] at hd
    cases hd
  have hstrip : stripHash (Nat.toDigits 10 n) = Nat.toDigits 10 n := by
    rw [htext]
    unfold stripHash
    split
    · rename_i heq
      exact absurd (List.cons.inj heq).1 (hne '#' (by decide))
    · rfl
  have hquoted : quoted (Nat.toDigits 10 n) = none := by
    rw [htext]
    unfold quoted
    split
    · rename_i heq
      exact absurd (List.cons.inj heq).1 (hne '\'' (by decide))
    · rfl
  unfold parseImmediate
  simp only [trim_digits, hstrip, hquoted]
  rw [htext] at hparse ⊢
  split
  · rename_i heq
    exact absurd (List.cons.inj heq).1 (hne '-' (by decide))
  · unfold parseMagnitude
    simp only
    split
    · rename_i heq
      exact absurd (List.cons.inj heq).1 hzero
    · rename_i heq
      exact absurd (List.cons.inj heq).1 hzero
    · rename_i heq
      exact absurd (List.cons.inj heq).1 hzero
    · rename_i heq
      exact absurd (List.cons.inj heq).1 hzero
    · rw [if_neg (by simp [hzero]), hparse]

/-- The field and its shift stand for the magnitude, shifted as written. -/
theorem addSubImmediate_ok {magnitude line imm12 : Nat} {explicit shift12 : Bool}
    (h : addSubImmediate magnitude explicit line = .ok (imm12, shift12)) :
    imm12 < 2 ^ 12 ∧ magnitude * (if explicit then 4096 else 1) < 2 ^ 24 ∧
      imm12 * (if shift12 then 4096 else 1) = magnitude * (if explicit then 4096 else 1) := by
  cases explicit with
  | true =>
      simp only [addSubImmediate, if_true] at h
      split at h
      · cases h
      · cases h
        simp only [if_true, and_true]
        omega
  | false =>
      simp only [addSubImmediate, Bool.false_eq_true, if_false] at h ⊢
      split at h
      · cases h
        simp only [Bool.false_eq_true, if_false, and_true]
        omega
      · split at h
        · cases h
          simp only [if_true]
          omega
        · cases h

end Assembler

section Written

variable {sf sub : Bool} {x y : BitVec (width sf)} {dest : Nat}

/-- The operation on the negated operand is the opposite one. -/
theorem leftBy_of_neg (hzero : y ≠ 0) (hmin : y ≠ BitVec.intMin (width sf))
    {code : Exec ExecResult} {m : Machine} (h : (addOrSub sf x (-y) (!sub) dest).LeftBy code m) :
    (addOrSub sf x y sub dest).LeftBy code m := by
  have hsame : (addOrSub sf x (-y) (!sub) dest).result = (addOrSub sf x y sub dest).result ∧
      (addOrSub sf x (-y) (!sub) dest).flags = (addOrSub sf x y sub dest).flags := by
    unfold AdderUse.flags AdderUse.result AdderUse.input addOrSub
    cases sub with
    | true =>
        obtain ⟨hsum, hcarry, hover⟩ := Adder.neg_eq_not_true hzero hmin x
        simp only [Bool.not_true, Bool.false_eq_true, if_false, if_true, hsum, hcarry, hover,
          and_self]
    | false =>
        have hzero' : -y ≠ 0 := by simpa using hzero
        have hmin' : -y ≠ BitVec.intMin (width sf) := by
          intro heq
          apply hmin
          rw [← BitVec.neg_neg (x := y), heq, BitVec.neg_intMin]
        obtain ⟨hsum, hcarry, hover⟩ := Adder.neg_eq_not_true hzero' hmin' x
        rw [BitVec.neg_neg] at hsum hcarry hover
        simp only [Bool.not_false, Bool.false_eq_true, if_false, if_true, hsum, hcarry, hover,
          and_self]
  obtain ⟨m', hrun, hflags, hresult⟩ := h
  exact ⟨m', hrun, hflags.trans hsame.2, fun hd => (hresult hd).trans (by rw [← hsame.1]; rfl)⟩

/-- What a flag-setting immediate form computes, as it is written. -/
def writtenUse (r : RegisterValues) (sub sf : Bool) (rd rn : Nat) (v : Word) (lsl12 : Bool) :
    AdderUse :=
  addOrSub sf (r.xOrSp rn (width sf)) ((v <<< (if lsl12 then 12 else 0)).setWidth (width sf))
    sub rd

/-- A small number is neither zero nor the least signed one. -/
theorem small_operand {sf : Bool} {n : Nat} (hpos : 0 < n) (hlt : n < 2 ^ 24) :
    (BitVec.ofNat (width sf) n) ≠ 0 ∧
      BitVec.ofNat (width sf) n ≠ BitVec.intMin (width sf) := by
  have hmod : (BitVec.ofNat (width sf) n).toNat = n := by
    rw [BitVec.toNat_ofNat]
    apply Nat.mod_eq_of_lt
    cases sf <;> simp only [width] <;> omega
  constructor
  · intro heq
    rw [heq] at hmod
    simp at hmod
    omega
  · intro heq
    rw [heq] at hmod
    cases sf <;> simp [width, BitVec.toNat_intMin] at hmod <;> omega

theorem eq_neg_natAbs {v : Word} (h : v.toInt < 0) : v = -BitVec.ofNat 64 v.toInt.natAbs := by
  have hlt := v.isLt
  have hcond := BitVec.toInt_eq_toNat_cond v
  apply BitVec.eq_of_toNat_eq
  rw [BitVec.toNat_neg, BitVec.toNat_ofNat]
  split at hcond <;> omega

theorem eq_natAbs {v : Word} (h : ¬ v.toInt < 0) : v = BitVec.ofNat 64 v.toInt.natAbs := by
  have hlt := v.isLt
  have hcond := BitVec.toInt_eq_toNat_cond v
  apply BitVec.eq_of_toNat_eq
  rw [BitVec.toNat_ofNat]
  split at hcond <;> omega

/-- The form on the magnitude leaves what is written. -/
theorem leftBy_written {V : Type} {sf sub shift12 lsl12 : Bool} {rd rn imm12 : Nat} {v : Word}
    (hsmall : v.toInt.natAbs * (if lsl12 then 4096 else 1) < 2 ^ 24)
    (hfield : imm12 * (if shift12 then 4096 else 1) =
      v.toInt.natAbs * (if lsl12 then 4096 else 1)) (vector : V → Exec ExecResult) (m : Machine) :
    (writtenUse m.regs.values sub sf rd rn v lsl12).LeftBy
      (execute vector (.dpImm (if xor sub (decide (v.toInt < 0)) then .subs else .adds) sf rd rn
        imm12 (if shift12 then 12 else 0))) m := by
  have hshift : ∀ (b : Bool) (n : Nat), BitVec.ofNat (width sf) n <<< (if b then 12 else 0) =
      BitVec.ofNat (width sf) (n * if b then 4096 else 1) := by
    intro b n
    cases b with
    | true =>
        apply BitVec.eq_of_toNat_eq
        rw [if_pos rfl, if_pos rfl, BitVec.toNat_shiftLeft, BitVec.toNat_ofNat,
          BitVec.toNat_ofNat, Nat.shiftLeft_eq, Nat.mod_mul_mod]
    | false => simp
  have hrun : (addOrSub sf (m.regs.values.xOrSp rn (width sf))
      (BitVec.ofNat (width sf) (v.toInt.natAbs * if lsl12 then 4096 else 1))
      (xor sub (decide (v.toInt < 0))) rd).LeftBy
      (execute vector (.dpImm (if xor sub (decide (v.toInt < 0)) then .subs else .adds) sf rd rn
        imm12 (if shift12 then 12 else 0))) m := by
    rw [← hfield, ← hshift]
    apply Execute.leftBy_execDpImm
    cases xor sub (decide (v.toInt < 0)) <;> rfl
  have hwritten : ∀ u : Word, (u <<< (if lsl12 then 12 else 0)).setWidth (width sf) =
      u.setWidth (width sf) <<< (if lsl12 then 12 else 0) :=
    fun u => Execute.setWidth_shiftLeft_of_le (width_le sf) u _
  unfold writtenUse
  rw [hwritten]
  by_cases hneg : v.toInt < 0
  · have hv : v.setWidth (width sf) = -BitVec.ofNat (width sf) v.toInt.natAbs := by
      rw [← BitVec.setWidth_ofNat_of_le (width_le sf), ← BitVec.setWidth_neg_of_le (width_le sf),
        ← eq_neg_natAbs hneg]
    have hoperand : v.setWidth (width sf) <<< (if lsl12 then 12 else 0) =
        -BitVec.ofNat (width sf) (v.toInt.natAbs * if lsl12 then 4096 else 1) := by
      rw [← hshift, hv, BitVec.shiftLeft_eq_mul_twoPow, BitVec.shiftLeft_eq_mul_twoPow,
        BitVec.neg_mul]
    have hpos : 0 < v.toInt.natAbs * if lsl12 then 4096 else 1 := by
      cases lsl12 <;> simp <;> omega
    obtain ⟨hzero, hmin⟩ := @small_operand sf _ hpos hsmall
    simp only [hneg, decide_true, Bool.xor_true] at hrun
    rw [hoperand]
    apply leftBy_of_neg
    · simpa using hzero
    · intro heq
      apply hmin
      rw [← BitVec.neg_neg (x := BitVec.ofNat _ _), heq, BitVec.neg_intMin]
    · rw [BitVec.neg_neg]
      simpa only [hneg, decide_true, Bool.xor_true] using hrun
  · have hv : v.setWidth (width sf) = BitVec.ofNat (width sf) v.toInt.natAbs := by
      rw [← BitVec.setWidth_ofNat_of_le (width_le sf), ← eq_natAbs hneg]
    simp only [hneg, decide_false, Bool.xor_false] at hrun ⊢
    rw [hv, hshift]
    exact hrun

end Written

namespace Assembler

variable {V : Type}

/-- A word computes the flag-setting operation written on `v`: it decodes to the immediate
form, of the opposite operation if `v` is negative, and that leaves the flags and the sum of
the operation as written. -/
def ComputesWritten (V : Type) (w : BitVec 32) (sub sf : Bool) (rd rn : Nat) (v : Word)
    (lsl12 : Bool) : Prop :=
  ∃ imm shift,
    (∀ vec : VectorDecoder V, decode vec w =
      .ok (.dpImm (if xor sub (decide (v.toInt < 0)) then .subs else .adds) sf rd rn imm shift)) ∧
    ∀ (vector : V → Exec ExecResult) (m : Machine),
      (writtenUse m.regs.values sub sf rd rn v lsl12).LeftBy
        (execute vector (.dpImm (if xor sub (decide (v.toInt < 0)) then .subs else .adds) sf rd rn
          imm shift)) m

/-- The fields of an immediate form: its magnitude, and the operation its sign gives. -/
structure ImmediateFields (w : BitVec 32) (sub sf : Bool) (rd rn : Nat) (v : Word)
    (lsl12 : Bool) (imm12 : Nat) (shift12 : Bool) : Prop where
  rd_lt : rd < 32
  rn_lt : rn < 32
  imm_lt : imm12 < 2 ^ 12
  small : v.toInt.natAbs * (if lsl12 then 4096 else 1) < 2 ^ 24
  field : imm12 * (if shift12 then 4096 else 1) = v.toInt.natAbs * (if lsl12 then 4096 else 1)
  word_eq : w = word [(sf.toNat, 31), ((xor sub (decide (v.toInt < 0))).toNat, 30), (1, 29),
    (0b10001, 24), (shift12.toNat, 22), (imm12, 10), (rn, 5), (rd, 0)]

variable {w : BitVec 32} {sub : Bool}

theorem ImmediateFields.computes {sf lsl12 shift12 : Bool} {rd rn imm12 : Nat} {v : Word}
    (h : ImmediateFields w sub sf rd rn v lsl12 imm12 shift12) :
    ComputesWritten V w sub sf rd rn v lsl12 := by
  refine ⟨imm12, if shift12 then 12 else 0, ?_, ?_⟩
  · intro vec
    rw [h.word_eq]
    exact Decode.decode_addSubImm vec h.imm_lt h.rn_lt h.rd_lt
  · exact leftBy_written h.small h.field

theorem encodeDpImm_ok {ops : List (List Char)} {op3 : List Char} {sf : Bool}
    {rd rn line : Nat} (hrd : rd < 32) (hrn : rn < 32)
    (h : encodeDpImm ops op3 sub.toNat 1 rd rn sf line = .ok w) :
    ∃ v imm12 shift12, parseImmediate op3 line = .ok v ∧
      ImmediateFields w sub sf rd rn v (decide (ops.length = 4)) imm12 shift12 := by
  unfold encodeDpImm at h
  obtain ⟨v, hv, h⟩ := bind_eq_ok h
  obtain ⟨imm12, shift12, hfield, rfl⟩ : ∃ imm12 shift12,
      addSubImmediate v.toInt.natAbs (decide (ops.length = 4)) line = .ok (imm12, shift12) ∧
        word [(sf.toNat, 31), (if v.toInt < 0 then 1 - sub.toNat else sub.toNat, 30), (1, 29),
          (0b10001, 24), (shift12.toNat, 22), (imm12, 10), (rn, 5), (rd, 0)] = w := by
    simp only at h
    split at h
    · obtain ⟨-, -, h⟩ := bind_eq_ok h
      obtain ⟨⟨imm12, shift12⟩, hfield, h⟩ := bind_eq_ok h
      exact ⟨imm12, shift12, hfield, Except.ok.inj h⟩
    · obtain ⟨⟨imm12, shift12⟩, hfield, h⟩ := bind_eq_ok h
      exact ⟨imm12, shift12, hfield, Except.ok.inj h⟩
  obtain ⟨himm, hsmall, hfield⟩ := addSubImmediate_ok hfield
  have hop : (if v.toInt < 0 then 1 - sub.toNat else sub.toNat) =
      (xor sub (decide (v.toInt < 0))).toNat := by
    by_cases hneg : v.toInt < 0 <;> cases sub <;> simp [hneg]
  exact ⟨v, imm12, shift12, hv, hrd, hrn, himm, hsmall, hfield, by rw [hop]⟩

theorem encodeDp_immediate {ops : List (List Char)} {line : Nat}
    (h : encodeDp ops sub.toNat 1 line = .ok w)
    (himm : opensImmediate (trim (operand ops 2)) = true) :
    ∃ rd sf rn side v imm12 shift12, parseRegister (operand ops 0) line = .ok (rd, sf) ∧
      parseRegister (operand ops 1) line = .ok (rn, side) ∧
      parseImmediate (trim (operand ops 2)) line = .ok v ∧
      ImmediateFields w sub sf rd rn v (decide (ops.length = 4)) imm12 shift12 := by
  unfold encodeDp at h
  split at h
  · cases h
  · obtain ⟨⟨rd, sf⟩, hrd, h⟩ := bind_eq_ok h
    obtain ⟨⟨rn, side⟩, hrn, h⟩ := bind_eq_ok h
    simp only [himm, if_true] at h
    obtain ⟨v, imm12, shift12, hv, hfields⟩ :=
      encodeDpImm_ok (parseRegister_lt hrd) (parseRegister_lt hrn) h
    exact ⟨rd, sf, rn, side, v, imm12, shift12, hrd, hrn, hv, hfields⟩

theorem parseRegister_zeroRegister (sf : Bool) (line : Nat) :
    parseRegister (zeroRegister sf) line = .ok (31, sf) := by
  cases sf <;> rfl

/-- The text a compare's negative immediate becomes reads as the negated number. -/
theorem parseImmediate_negated {v : Word} (hneg : v.toInt < 0) (hmin : v ≠ BitVec.intMin 64)
    (line : Nat) :
    opensImmediate (trim (i64Text (-v)).toList) = true ∧
      parseImmediate (trim (i64Text (-v)).toList) line = .ok (-v) := by
  have hint : (-v).toInt = -v.toInt := BitVec.toInt_neg_of_ne_intMin hmin
  have hle := BitVec.le_toInt v
  have htext : (i64Text (-v)).toList = Nat.toDigits 10 v.toInt.natAbs := by
    have habs : (-v.toInt).toNat = v.toInt.natAbs := by omega
    rw [i64Text, hint, Int.toString_eq_repr, Int.repr_eq_if, if_pos (by omega), habs,
      Nat.repr_eq_ofList_toDigits, String.toList_ofList]
  obtain ⟨c, rest, hcons, hdigit, -⟩ :=
    toDigits_cases (show 0 < v.toInt.natAbs by omega)
  rw [htext, trim_digits]
  constructor
  · rw [hcons]
    simp [opensImmediate, hdigit]
  · rw [parseImmediate_digits (by omega) (by omega)]
    have hv := eq_neg_natAbs hneg
    generalize v.toInt.natAbs = n at hv
    rw [hv, BitVec.neg_neg]

/-- Negating the number and the operation gives the same fields. -/
theorem ImmediateFields.of_neg {sf lsl12 shift12 : Bool}
    {rd rn imm12 : Nat} {v : Word} (hneg : v.toInt < 0) (hmin : v ≠ BitVec.intMin 64)
    (h : ImmediateFields w (!sub) sf rd rn (-v) lsl12 imm12 shift12) :
    ImmediateFields w sub sf rd rn v lsl12 imm12 shift12 := by
  have hint : (-v).toInt = -v.toInt := BitVec.toInt_neg_of_ne_intMin hmin
  have habs : (-v).toInt.natAbs = v.toInt.natAbs := by rw [hint, Int.natAbs_neg]
  have hop : xor (!sub) (decide ((-v).toInt < 0)) = xor sub (decide (v.toInt < 0)) := by
    have hpos : ¬ (-v).toInt < 0 := by omega
    simp [hneg, hpos]
  obtain ⟨hrd, hrn, himm, hsmall, hfield, hword⟩ := h
  rw [habs] at hsmall hfield
  rw [hop] at hword
  exact ⟨hrd, hrn, himm, hsmall, hfield, hword⟩

/-- A compare is the flag-setting form that writes the zero register. -/
theorem encodeDp_compare {reg op3 : List Char} {rest : List (List Char)} {sf : Bool}
    {line rn : Nat} (hrn : parseRegister reg line = .ok (rn, sf))
    (h : encodeDp (zeroRegister sf :: reg :: op3 :: rest) sub.toNat 1 line = .ok w)
    (himm : opensImmediate (trim op3) = true) :
    ∃ v imm12 shift12, parseImmediate (trim op3) line = .ok v ∧
      ImmediateFields w sub sf 31 rn v (decide (rest.length = 1)) imm12 shift12 := by
  obtain ⟨rd, sf', rn', side, v, imm12, shift12, hrd, hrn', hv, hfields⟩ :=
    encodeDp_immediate h himm
  simp only [operand, List.getD_cons_zero, List.getD_cons_succ] at hrd hrn' hv
  rw [parseRegister_zeroRegister] at hrd
  rw [hrn] at hrn'
  cases hrd
  cases hrn'
  exact ⟨v, imm12, shift12, hv, by simpa using hfields⟩

/-- A compare with an immediate, negative ones flipped before the operands are read. -/
theorem encodeCmp_immediate {reg op : List Char} {rest : List (List Char)}
    {line : Nat} (h : encodeCmp (reg :: op :: rest) sub.toNat line = .ok w)
    (himm : opensImmediate (trim op) = true) :
    ∃ rn sf v imm12 shift12, parseRegister reg line = .ok (rn, sf) ∧
      parseImmediate (trim op) line = .ok v ∧
      ImmediateFields w sub sf 31 rn v (decide (rest.length = 1)) imm12 shift12 := by
  unfold encodeCmp at h
  simp only [operand, List.getD_cons_zero, List.getD_cons_succ] at h
  split at h
  · cases h
  · rename_i hcount
    obtain ⟨⟨rn, sf⟩, hrn, h⟩ := bind_eq_ok h
    have hdirect : encodeDp (zeroRegister sf :: reg :: op :: rest) sub.toNat 1 line = .ok w →
        ∃ rn sf v imm12 shift12, parseRegister reg line = .ok (rn, sf) ∧
          parseImmediate (trim op) line = .ok v ∧
          ImmediateFields w sub sf 31 rn v (decide (rest.length = 1)) imm12 shift12 := by
      intro h
      obtain ⟨v, imm12, shift12, hv, hfields⟩ := encodeDp_compare hrn h himm
      exact ⟨rn, sf, v, imm12, shift12, hrn, hv, hfields⟩
    simp only at h
    split at h
    · exact hdirect h
    · rename_i hlength
      split at h
      · rename_i flipped hflipped
        -- the flipped text names the magnitude, and the operation is the other one
        unfold flippedImmediate at hflipped
        rw [if_pos himm] at hflipped
        split at hflipped
        · rename_i v hv
          split at hflipped
          · rename_i hneg
            cases hflipped
            obtain ⟨hopens, hread⟩ := parseImmediate_negated hneg.1 hneg.2 line
            have hnot : 1 - sub.toNat = (!sub).toNat := by cases sub <;> rfl
            rw [hnot] at h
            obtain ⟨v', imm12, shift12, hv', hfields⟩ := encodeDp_compare hrn h hopens
            rw [hread] at hv'
            cases hv'
            refine ⟨rn, sf, v, imm12, shift12, hrn, hv, ?_⟩
            have hrest : rest.length ≠ 1 := by
              simp only [List.length_cons] at hlength
              omega
            rw [decide_eq_false hrest]
            exact hfields.of_neg hneg.1 hneg.2
          · cases hflipped
        · cases hflipped
      · exact hdirect h

end Assembler

open Assembler in
/-- Flags and conditions are the architecture's.  Every flag-setting form leaves the sum and
the flags of the adder; after a subtraction each condition code is its comparison; and an
immediate form, negative or not, computes the operation on the number as it is written. -/
theorem flags_match_architecture (V : Type) :
    (∀ (vector : V → Exec ExecResult) (m : Machine) (instr : Instruction V) (use : AdderUse),
      adderUse m.regs.values instr = some use →
        use.LeftBy (execute vector instr) m ∧
        (use.subtract = true → use.carry = true → ∀ cond holds,
          comparison use.x use.y cond = some holds →
            ((execute vector instr).run m).1.regs.nzcv.check cond = holds)) ∧
    (∀ (ops : List (List Char)) (sub : Bool) (line : Nat) (w : BitVec 32),
      encodeDp ops sub.toNat 1 line = .ok w → opensImmediate (trim (operand ops 2)) = true →
        ∃ rd sf rn side v, parseRegister (operand ops 0) line = .ok (rd, sf) ∧
          parseRegister (operand ops 1) line = .ok (rn, side) ∧
          parseImmediate (trim (operand ops 2)) line = .ok v ∧
          ComputesWritten V w sub sf rd rn v (decide (ops.length = 4))) ∧
    (∀ (reg op : List Char) (rest : List (List Char)) (sub : Bool) (line : Nat) (w : BitVec 32),
      encodeCmp (reg :: op :: rest) sub.toNat line = .ok w → opensImmediate (trim op) = true →
        ∃ rn sf v, parseRegister reg line = .ok (rn, sf) ∧
          parseImmediate (trim op) line = .ok v ∧
          ComputesWritten V w sub sf 31 rn v (decide (rest.length = 1))) := by
  refine ⟨?_, ?_, ?_⟩
  · intro vector m instr use huse
    have hleft := Execute.leftBy_execute vector huse
    refine ⟨hleft, ?_⟩
    intro hsub hcarry cond holds hcond
    obtain ⟨m', hrun, hflags, -⟩ := hleft
    rw [hrun, hflags]
    exact AdderUse.check_flags hsub hcarry hcond
  · intro ops sub line w h himm
    obtain ⟨rd, sf, rn, side, v, imm12, shift12, hrd, hrn, hv, hfields⟩ :=
      encodeDp_immediate h himm
    exact ⟨rd, sf, rn, side, v, hrd, hrn, hv, hfields.computes⟩
  · intro reg op rest sub line w h himm
    obtain ⟨rn, sf, v, imm12, shift12, hrn, hv, hfields⟩ := encodeCmp_immediate h himm
    exact ⟨rn, sf, v, hrn, hv, hfields.computes⟩

/-- A machine with the largest word in w1 and the smallest in w2. -/
def extremeWords : Machine where
  regs := (RegisterFile.new.writeGpr 1 false 0x7FFFFFFF).writeGpr 2 false 0x80000000
  mem := Memory.new
  heap := HeapState.new

open Assembler in
/-- `cmp w1, -1` is `cmn w1, #1`, and finds the largest word greater.  After `cmp w1, w2` the
signed and the unsigned comparison differ. -/
theorem flags_match_architecture_extremeWords :
    (∃ imm shift m', encodeCmp [['w', '1'], ['-', '1']] 1 1 = .ok 0x3100043F ∧
      (∀ vec : VectorDecoder Empty,
        decode vec 0x3100043F = .ok (.dpImm .adds false 31 1 imm shift)) ∧
      (execute Empty.elim (.dpImm .adds false 31 1 imm shift)).run extremeWords =
        (m', .ok .advance) ∧
      m'.regs.nzcv = ⟨true, false, false, true⟩ ∧ m'.regs.nzcv.check .gt = true) ∧
    (((execute Empty.elim (.dpReg .subs false 31 1 2 .lsl 0)).run extremeWords).1.regs.nzcv.check
        .gt = true ∧
      ((execute Empty.elim (.dpReg .subs false 31 1 2 .lsl 0)).run extremeWords).1.regs.nzcv.check
        .hi = false) := by
  obtain ⟨hforms, -, hcmp⟩ := flags_match_architecture Empty
  constructor
  · obtain ⟨rn, sf, v, hrn, hv, imm, shift, hdecode, hleft⟩ :=
      hcmp ['w', '1'] ['-', '1'] [] true 1 0x3100043F (by decide) (by decide)
    have hread : parseRegister ['w', '1'] 1 = .ok (1, false) := by decide
    have hvalue : parseImmediate (trim ['-', '1']) 1 = .ok (-1) := by decide
    obtain ⟨rfl, rfl⟩ := Prod.mk.inj (Except.ok.inj (hread.symm.trans hrn))
    obtain rfl := Except.ok.inj (hvalue.symm.trans hv)
    obtain ⟨m', hrun, hflags, -⟩ := hleft Empty.elim extremeWords
    have hnzcv : m'.regs.nzcv = ⟨true, false, false, true⟩ := hflags.trans (by decide)
    exact ⟨imm, shift, m', by decide, hdecode, hrun, hnzcv, by rw [hnzcv]; rfl⟩
  · obtain ⟨-, hconditions⟩ :=
      hforms Empty.elim extremeWords (.dpReg .subs false 31 1 2 .lsl 0) _ rfl
    exact ⟨hconditions rfl rfl .gt true (by decide), hconditions rfl rfl .hi false (by decide)⟩

end Playground
