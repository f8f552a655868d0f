/-
The flag-setting adds, subtracts and compares against the architecture's adder.  Each names
its operands at the register's width, whether the second is inverted, and the carry in; the
executor's masks, shifts and flag helpers have to come to the same.
-/
import Playground.Isa.Execute
import Playground.Isa.Values
import Playground.Library.Adder

namespace Playground

/-- The bits of a general register by its width. -/
def width : Bool → Nat
  | true => 64
  | false => 32

namespace RegisterValues

/-- A general register at a width, where 31 is the zero register. -/
def x (r : RegisterValues) (index w : Nat) : BitVec w :=
  if h : index < 31 then (r.gpr ⟨index, h⟩).setWidth w else 0

/-- A general register at a width, where 31 is the stack pointer. -/
def xOrSp (r : RegisterValues) (index w : Nat) : BitVec w :=
  if 31 ≤ index then r.sp.setWidth w else r.x index w

end RegisterValues

def shiftedOperand {w : Nat} (value : BitVec w) (amount : Nat) : ShiftType → BitVec w
  | .lsl => value <<< (amount % w)
  | .lsr => value >>> (amount % w)
  | .asr => value.sshiftRight (amount % w)
  | .ror => value.rotateRight (amount % w)

/-- The bits an extend keeps, and whether it copies their sign. -/
def RegExtend.kept : RegExtend → Nat × Bool
  | .uxtb => (8, false)
  | .uxth => (16, false)
  | .uxtw => (32, false)
  | .uxtx => (64, false)
  | .sxtb => (8, true)
  | .sxth => (16, true)
  | .sxtw => (32, true)
  | .sxtx => (64, true)

def extendedOperand {w : Nat} (value : BitVec w) (extend : RegExtend) (shift : Nat) : BitVec w :=
  let low := value.setWidth extend.kept.1
  (if extend.kept.2 then low.signExtend w else low.setWidth w) <<< shift

/-- One use of the adder: its operands, whether the second goes in inverted, the carry in,
and the register that takes the sum, if it is below 31. -/
structure AdderUse where
  sf : Bool
  x : BitVec (width sf)
  y : BitVec (width sf)
  subtract : Bool
  carry : Bool
  dest : Nat

namespace AdderUse

def input (use : AdderUse) : BitVec (width use.sf) := if use.subtract then ~~~use.y else use.y

def result (use : AdderUse) : BitVec (width use.sf) := Adder.sum use.x use.input use.carry

def flags (use : AdderUse) : NzcvFlags where
  n := use.result.msb
  z := decide (use.result = 0)
  c := Adder.carryOut use.x use.input use.carry
  v := Adder.overflows use.x use.input use.carry

/-- Code leaves what the adder gives: the flags, and the sum in the register. -/
def LeftBy (use : AdderUse) (code : Exec ExecResult) (m : Machine) : Prop :=
  ∃ m', code.run m = (m', .ok .advance) ∧ m'.regs.nzcv = use.flags ∧
    ∀ h : use.dest < 31, m'.regs.gpr ⟨use.dest, h⟩ = use.result.setWidth 64

end AdderUse

/-- A subtraction inverts its operand and starts with a carry. -/
def addOrSub (sf : Bool) (x y : BitVec (width sf)) (sub : Bool) (dest : Nat) : AdderUse :=
  ⟨sf, x, y, sub, sub, dest⟩

def subtracts : DpOp → Option Bool
  | .adds => some false
  | .subs => some true
  | .add | .sub => none

/-- How the architecture defines a flag-setting instruction by its adder. -/
def adderUse {V : Type} (r : RegisterValues) : Instruction V → Option AdderUse
  | .dpImm op sf rd rn imm shift =>
      (subtracts op).map fun sub =>
        addOrSub sf (r.xOrSp rn (width sf)) (BitVec.ofNat (width sf) imm <<< shift) sub rd
  | .dpReg op sf rd rn rm shift amount =>
      (subtracts op).map fun sub =>
        addOrSub sf (r.x rn (width sf)) (shiftedOperand (r.x rm (width sf)) amount shift) sub rd
  | .dpRegExt op sf rd rn rm extend shift =>
      (subtracts op).map fun sub =>
        addOrSub sf (r.xOrSp rn (width sf)) (extendedOperand (r.x rm (width sf)) extend shift)
          sub rd
  | .dpCarry sub true sf rd rn rm =>
      some ⟨sf, r.x rn (width sf), r.x rm (width sf), sub, r.nzcv.c, rd⟩
  | .condCompare sub sf rn operand cond _ =>
      if r.nzcv.check cond then
        let y := match operand with
          | .reg rm => r.x rm (width sf)
          | .imm imm => BitVec.ofNat (width sf) imm
        some (addOrSub sf (r.x rn (width sf)) y sub 31)
      else none
  | _ => none

/-- The comparison a condition code stands for, after a compare of `x` and `y`. -/
def comparison {w : Nat} (x y : BitVec w) : Condition → Option Bool
  | .eq => some (decide (x = y))
  | .ne => some (decide (x ≠ y))
  | .hs => some (decide (y.toNat ≤ x.toNat))
  | .lo => some (decide (x.toNat < y.toNat))
  | .hi => some (decide (y.toNat < x.toNat))
  | .ls => some (decide (x.toNat ≤ y.toNat))
  | .ge => some (decide (y.toInt ≤ x.toInt))
  | .lt => some (decide (x.toInt < y.toInt))
  | .gt => some (decide (y.toInt < x.toInt))
  | .le => some (decide (x.toInt ≤ y.toInt))
  | .mi | .pl | .vs | .vc | .al => none

theorem width_pos (sf : Bool) : 0 < width sf := by cases sf <;> decide

theorem width_le (sf : Bool) : width sf ≤ 64 := by cases sf <;> decide

namespace AdderUse

/-- The flags of a subtraction, by its own terms. -/
theorem flags_sub (sf : Bool) (x y : BitVec (width sf)) (dest : Nat) :
    (addOrSub sf x y true dest).flags =
      ⟨(x - y).msb, decide (x - y = 0), decide (y ≤ x),
        x.msb != y.msb && x.msb != (x - y).msb⟩ := by
  unfold flags result input addOrSub
  simp only [if_true]
  rw [Adder.sum_not_true, Adder.carryOut_not_true, Adder.overflows_not_true (width_pos sf)]

/-- The flags of an addition, by its own terms. -/
theorem flags_add (sf : Bool) (x y : BitVec (width sf)) (dest : Nat) :
    (addOrSub sf x y false dest).flags =
      ⟨(x + y).msb, decide (x + y = 0), decide (2 ^ width sf ≤ x.toNat + y.toNat),
        x.msb == y.msb && x.msb != (x + y).msb⟩ := by
  have hsum : Adder.sum x y false = x + y := by
    rw [Adder.sum_eq]
    exact BitVec.add_zero _
  unfold flags result input addOrSub
  simp only [Bool.false_eq_true, if_false]
  rw [Adder.overflows_eq (width_pos sf), Adder.carryOut_eq, hsum]
  rfl

/-- After a subtraction each condition code is the comparison it is named for. -/
theorem check_flags {use : AdderUse} (hsub : use.subtract = true) (hcarry : use.carry = true)
    {cond : Condition} {holds : Bool} (h : comparison use.x use.y cond = some holds) :
    use.flags.check cond = holds := by
  obtain ⟨sf, x, y, subtract, carry, dest⟩ := use
  subst hsub hcarry
  have hzero : decide (x - y = 0) = decide (x.toNat = y.toNat) := by
    rw [decide_eq_decide, sub_eq_zero, BitVec.toNat_inj]
  have hsign := Adder.msb_sub_ne_overflows (width_pos sf) x y
  rw [Adder.overflows_not_true (width_pos sf)] at hsign
  have hflags := flags_sub sf x y dest
  unfold addOrSub at hflags
  rw [hflags, hzero]
  generalize (x.msb != y.msb && x.msb != (x - y).msb) = v at hsign ⊢
  generalize (x - y).msb = n at hsign ⊢
  have hequal : x.toInt = y.toInt ↔ x.toNat = y.toNat := by
    rw [BitVec.toInt_inj, BitVec.toNat_inj]
  have hsign' : (n == v) = !(x.slt y) := by
    rw [← hsign]
    cases n <;> cases v <;> rfl
  cases cond <;> simp only [comparison, Option.some.injEq, reduceCtorEq] at h <;> subst h <;>
    rw [Bool.eq_iff_iff] <;>
    simp only [NzcvFlags.check, hsign, hsign', BitVec.slt_eq_decide, BitVec.le_def,
      Bool.and_eq_true, Bool.or_eq_true, Bool.not_eq_true', decide_eq_true_eq,
      decide_eq_false_iff_not, ne_eq, ← BitVec.toNat_inj] <;>
    omega

end AdderUse

namespace Execute

theorem and_widthMask (a : Word) (sf : Bool) :
    a &&& widthMask sf = (a.setWidth (width sf)).setWidth 64 := by
  apply BitVec.eq_of_toNat_eq
  cases sf with
  | true =>
      rw [widthMask, if_pos rfl, BitVec.and_allOnes]
      simp [width]
  | false =>
      have hmask : (widthMask false).toNat = 2 ^ 32 - 1 := rfl
      rw [BitVec.toNat_and, hmask, Nat.and_two_pow_sub_one_eq_mod, BitVec.toNat_setWidth,
        BitVec.toNat_setWidth, width]
      omega

theorem setWidth_sub_of_le (a b : Word) (sf : Bool) :
    (a - b).setWidth (width sf) = a.setWidth (width sf) - b.setWidth (width sf) := by
  rw [BitVec.sub_eq_add_neg, BitVec.setWidth_add _ _ (width_le sf),
    BitVec.setWidth_neg_of_le (width_le sf), ← BitVec.sub_eq_add_neg]

theorem toNat_widen {sf : Bool} (x : BitVec (width sf)) : (x.setWidth 64).toNat = x.toNat :=
  BitVec.toNat_setWidth_of_le (width_le sf)

theorem setWidth_widen {sf : Bool} (x : BitVec (width sf)) :
    (x.setWidth 64).setWidth (width sf) = x := by
  rw [BitVec.setWidth_setWidth_of_le x (width_le sf), BitVec.setWidth_eq]

theorem widen_eq_zero {sf : Bool} (x : BitVec (width sf)) : x.setWidth 64 = 0 ↔ x = 0 := by
  rw [← BitVec.toNat_inj, ← BitVec.toNat_inj, toNat_widen]
  simp

theorem getLsbD_signBit {sf : Bool} (x : BitVec (width sf)) :
    (x.setWidth 64).getLsbD (signBit sf) = x.msb := by
  have hbit : signBit sf = width sf - 1 := by cases sf <;> rfl
  have hlt : width sf - 1 < 64 := by cases sf <;> decide
  rw [hbit, BitVec.msb_eq_getLsbD_last, BitVec.getLsbD_setWidth]
  simp [hlt]

section Helpers

variable {a b r : Word} {sf : Bool} {x y : BitVec (width sf)}

/-- The flags of an addition are the adder's. -/
theorem addFlags_eq (ha : a.setWidth (width sf) = x) (hb : b.setWidth (width sf) = y)
    (hr : r.setWidth (width sf) = x + y) (dest : Nat) :
    addFlags a b r sf = (addOrSub sf x y false dest).flags := by
  rw [AdderUse.flags_add]
  unfold addFlags
  simp only [and_widthMask, ha, hb, hr, getLsbD_signBit, widen_eq_zero, BitVec.lt_def, toNat_widen]
  have hx := x.isLt
  have hy := y.isLt
  have hcarry : (if sf then decide ((x + y).toNat < x.toNat) else
      decide (2 ^ 32 ≤ x.toNat + y.toNat)) = decide (2 ^ width sf ≤ x.toNat + y.toNat) := by
    cases sf with
    | true =>
        -- a sum below its operand has wrapped
        have hmod := BitVec.toNat_add x y
        rw [if_pos rfl, decide_eq_decide]
        simp only [width] at hx hy hmod ⊢
        omega
    | false => rfl
  rw [hcarry]

theorem subFlags_eq (ha : a.setWidth (width sf) = x) (hb : b.setWidth (width sf) = y)
    (hr : r.setWidth (width sf) = x - y) (dest : Nat) :
    subFlags a b r sf = (addOrSub sf x y true dest).flags := by
  rw [AdderUse.flags_sub]
  unfold subFlags
  simp only [and_widthMask, ha, hb, hr, getLsbD_signBit, widen_eq_zero, BitVec.le_def, toNat_widen]

theorem addWithCarry_eq {sub : Bool} (ha : a.setWidth (width sf) = x)
    (hb : b.setWidth (width sf) = if sub then ~~~y else y) (carry : Bool) (dest : Nat) :
    addWithCarry a b carry sf =
      ((AdderUse.mk sf x y sub carry dest).result.setWidth 64,
        (AdderUse.mk sf x y sub carry dest).flags) := by
  have hresult : BitVec.ofNat 64 (x.toNat + (if sub then ~~~y else y).toNat + carry.toNat) &&&
      widthMask sf = (Adder.sum x (if sub then ~~~y else y) carry).setWidth 64 := by
    rw [and_widthMask, Adder.sum, BitVec.setWidth_ofNat_of_le (width_le sf)]
  have hmask : (widthMask sf).toNat = 2 ^ width sf - 1 := by cases sf <;> rfl
  unfold addWithCarry AdderUse.flags AdderUse.result AdderUse.input
  simp only [and_widthMask a, and_widthMask b, ha, hb, toNat_widen, hresult, getLsbD_signBit,
    widen_eq_zero, hmask]
  rw [Adder.overflows_eq (width_pos sf), Adder.carryOut_eq]
  have hpos := Nat.two_pow_pos (width sf)
  have hcarry : decide (2 ^ width sf - 1 <
      x.toNat + (if sub then ~~~y else y).toNat + carry.toNat) =
      decide (2 ^ width sf ≤ x.toNat + (if sub then ~~~y else y).toNat + carry.toNat) := by
    rw [decide_eq_decide]
    omega
  rw [hcarry]

/-- The sum or difference and its flags are the adder's. -/
theorem addSub_eq {op : DpOp} {sub : Bool} (hop : subtracts op = some sub)
    (ha : a.setWidth (width sf) = x) (hb : b.setWidth (width sf) = y) (dest : Nat) :
    addSub op a b sf =
      ((addOrSub sf x y sub dest).result.setWidth 64, (addOrSub sf x y sub dest).flags) := by
  have hsum : (a + b).setWidth (width sf) = x + y := by
    rw [BitVec.setWidth_add _ _ (width_le sf), ha, hb]
  have hdiff : (a - b).setWidth (width sf) = x - y := by
    rw [setWidth_sub_of_le, ha, hb]
  cases op with
  | add => cases hop
  | sub => cases hop
  | adds =>
      cases hop
      have hresult : (addOrSub sf x y false dest).result = x + y := by
        unfold AdderUse.result AdderUse.input addOrSub
        simp [Adder.sum_eq]
      simp only [addSub, and_widthMask, hsum, hresult,
        addFlags_eq ha hb (setWidth_widen (x + y)) dest]
      rfl
  | subs =>
      cases hop
      have hresult : (addOrSub sf x y true dest).result = x - y := Adder.sum_not_true x y
      simp only [addSub, and_widthMask, hdiff, hresult,
        subFlags_eq ha hb (setWidth_widen (x - y)) dest]
      rfl

end Helpers

section Operands

theorem setWidth_shiftLeft_of_le {n k : Nat} (h : k ≤ n) (a : BitVec n) (s : Nat) :
    (a <<< s).setWidth k = a.setWidth k <<< s := by
  ext i hi
  have hin : i < n := by omega
  simp [hin, BitVec.getLsbD_eq_getElem (show i - s < n by omega)]

theorem setWidth_signExtend_of_le {n k l : Nat} (h : k ≤ l) (a : BitVec n) :
    (a.signExtend l).setWidth k = a.signExtend k := by
  ext i hi
  have hil : i < l := by omega
  simp [BitVec.getElem_signExtend, hil]

theorem rotateRight_zero {n : Nat} (a : BitVec n) : a.rotateRight 0 = a := by
  simp [BitVec.rotateRight, BitVec.rotateRightAux]

theorem setWidth_ushiftRight_widen (a : BitVec 32) (s : Nat) :
    (a.setWidth 64 >>> s).setWidth 32 = a >>> s := by
  apply BitVec.eq_of_toNat_eq
  have hlt := a.isLt
  have hle : a.toNat / 2 ^ s ≤ a.toNat := Nat.div_le_self _ _
  simp only [BitVec.toNat_setWidth, BitVec.toNat_ushiftRight, Nat.shiftRight_eq_div_pow]
  rw [Nat.mod_eq_of_lt (show a.toNat < 2 ^ 64 by omega), Nat.mod_eq_of_lt (by omega)]

theorem setWidth_applyShift (v : Word) (shift : ShiftType) (amount : Nat) (sf : Bool) :
    (applyShift v shift amount sf).setWidth (width sf) =
      shiftedOperand (v.setWidth (width sf)) amount shift := by
  unfold applyShift
  simp only [and_widthMask, setWidth_widen]
  cases sf with
  | true =>
      simp only [width, BitVec.setWidth_eq, if_true]
      cases shift with
      | lsl => rfl
      | lsr => rfl
      | asr => rfl
      | ror =>
          simp only [shiftedOperand]
          split
          · rename_i h
            rw [h]
            exact (rotateRight_zero v).symm
          · rfl
  | false =>
      simp only [width, Bool.false_eq_true, if_false]
      cases shift with
      | lsl =>
          simp only [shiftedOperand]
          rw [setWidth_shiftLeft_of_le (by decide)]
          simp
      | lsr => exact setWidth_ushiftRight_widen _ _
      | asr => simp [shiftedOperand]
      | ror =>
          simp only [shiftedOperand]
          split
          · rename_i h
            rw [h, rotateRight_zero]
            simp
          · simp

theorem and_ones (v : Word) {k : Nat} (hk : k ≤ 64) :
    v &&& BitVec.ofNat 64 (2 ^ k - 1) = (v.setWidth k).setWidth 64 := by
  apply BitVec.eq_of_toNat_eq
  have hpos := Nat.two_pow_pos k
  have hle : 2 ^ k ≤ 2 ^ 64 := Nat.pow_le_pow_right (by decide) hk
  have hmod := Nat.mod_lt v.toNat hpos
  rw [BitVec.toNat_and, BitVec.toNat_ofNat, Nat.mod_eq_of_lt (by omega),
    Nat.and_two_pow_sub_one_eq_mod, BitVec.toNat_setWidth, BitVec.toNat_setWidth]
  exact (Nat.mod_eq_of_lt (by omega)).symm

theorem extendReg_eq (v : Word) (extend : RegExtend) :
    extendReg v extend =
      if extend.kept.2 then (v.setWidth extend.kept.1).signExtend 64
      else (v.setWidth extend.kept.1).setWidth 64 := by
  cases extend with
  | uxtb => exact and_ones v (show 8 ≤ 64 by decide)
  | uxth => exact and_ones v (show 16 ≤ 64 by decide)
  | uxtw => exact and_ones v (show 32 ≤ 64 by decide)
  | uxtx => simp [extendReg, RegExtend.kept]
  | sxtb => rfl
  | sxth => rfl
  | sxtw => rfl
  | sxtx => simp [extendReg, RegExtend.kept]

/-- The executor's extend and shift at 64 bits, cut to the width, are the ones at it. -/
theorem setWidth_extendReg {sf : Bool} (x : BitVec (width sf)) (extend : RegExtend)
    (shift : Nat) :
    ((extendReg (x.setWidth 64) extend <<< shift) &&& widthMask sf).setWidth (width sf) =
      extendedOperand x extend shift := by
  have hkept : extend.kept.1 ≤ 64 := by cases extend <;> decide
  have hlow : (x.setWidth 64).setWidth extend.kept.1 = x.setWidth extend.kept.1 :=
    BitVec.setWidth_setWidth_of_le x hkept
  rw [and_widthMask, setWidth_widen, setWidth_shiftLeft_of_le (width_le sf), extendReg_eq, hlow]
  unfold extendedOperand
  simp only
  congr 1
  split
  · exact setWidth_signExtend_of_le (width_le sf) _
  · exact BitVec.setWidth_setWidth_of_le _ (width_le sf)

theorem ite_widthMask (sf : Bool) (v : Word) :
    (if sf then v else v &&& 0xFFFFFFFF) = (v.setWidth (width sf)).setWidth 64 := by
  rw [← and_widthMask]
  cases sf with
  | true => exact (BitVec.and_allOnes).symm
  | false => rfl

/-- A register is read at its width, the bits above zero. -/
theorem gprValue_eq (r : RegisterFile) (index : Nat) (sf : Bool) :
    r.gprValue index sf = (r.values.x index (width sf)).setWidth 64 := by
  unfold RegisterFile.gprValue RegisterValues.x
  rw [ite_widthMask]
  split
  · rfl
  · simp

theorem gprOrSp_eq (r : RegisterFile) (index : Nat) (sf : Bool) :
    (if 31 ≤ index then (if sf then r.sp else r.sp &&& 0xFFFFFFFF) else r.gprValue index sf) =
      (r.values.xOrSp index (width sf)).setWidth 64 := by
  unfold RegisterValues.xOrSp
  rw [ite_widthMask, gprValue_eq]
  split <;> rfl

end Operands

section Runs

variable {V : Type} {α : Type} {use : AdderUse} {m : Machine}

/-- A look in front changes nothing. -/
theorem leftBy_bind {x : Exec α} {next : α → Exec ExecResult} {a : α} (hread : x.Reads m a)
    (h : ∀ r, r.values = m.regs.values → use.LeftBy (next a) { m with regs := r }) :
    use.LeftBy (x >>= next) m := by
  obtain ⟨r, hrun, hvalues⟩ := hread.bind (f := next)
  unfold AdderUse.LeftBy
  rw [hrun]
  exact h r hvalues

/-- Assigning the flags and writing the sum leaves both. -/
theorem leftBy_write (use : AdderUse) (m : Machine) :
    use.LeftBy (do
      Exec.assignNzcv use.flags
      Exec.writeGpr use.dest use.sf (use.result.setWidth 64)
      return .advance) m := by
  have hmask : (if use.sf then use.result.setWidth 64
      else use.result.setWidth 64 &&& 0xFFFFFFFF) = use.result.setWidth 64 := by
    rw [ite_widthMask, setWidth_widen]
  have hvalues := (m.regs.assignNzcv use.flags).values_writeGpr use.dest use.sf
    (use.result.setWidth 64)
  rw [hmask] at hvalues
  refine ⟨_, rfl, ?_, ?_⟩
  · have hnzcv := congrArg RegisterValues.nzcv hvalues
    split at hnzcv <;> exact hnzcv
  · intro h
    rw [dif_pos h] at hvalues
    have hgpr := congrFun (congrArg RegisterValues.gpr hvalues) ⟨use.dest, h⟩
    exact hgpr.trans (Function.update_self _ _ _)

section Forms

variable {sf sub : Bool} {x y : BitVec (width sf)} {a b : Word} {op : DpOp} {rd : Nat}

theorem setsFlags_of_subtracts (hop : subtracts op = some sub) : setsFlags op = true := by
  cases op with
  | add => cases hop
  | sub => cases hop
  | adds => rfl
  | subs => rfl

theorem leftBy_finishAddSub (hop : subtracts op = some sub) (ha : a.setWidth (width sf) = x)
    (hb : b.setWidth (width sf) = y) (rd : Nat) (m : Machine) :
    (addOrSub sf x y sub rd).LeftBy (finishAddSub op sf rd a b) m := by
  unfold finishAddSub
  rw [addSub_eq hop ha hb rd]
  simp only [setsFlags_of_subtracts hop, if_true]
  exact leftBy_write (addOrSub sf x y sub rd) m

theorem leftBy_execDpImm (hop : subtracts op = some sub) (rd rn imm shift : Nat) (m : Machine) :
    (addOrSub sf (m.regs.values.xOrSp rn (width sf)) (BitVec.ofNat (width sf) imm <<< shift) sub
      rd).LeftBy (execDpImm op sf rd rn imm shift) m := by
  apply leftBy_bind (Exec.reads_readGprOrSp rn sf m)
  intro r _
  rw [gprOrSp_eq]
  apply leftBy_finishAddSub hop (setWidth_widen _)
  rw [setWidth_shiftLeft_of_le (width_le sf), BitVec.setWidth_ofNat_of_le (width_le sf)]

theorem leftBy_execDpExt (hop : subtracts op = some sub) (rd rn rm : Nat) (extend : RegExtend)
    (shift : Nat) (m : Machine) :
    (addOrSub sf (m.regs.values.xOrSp rn (width sf))
      (extendedOperand (m.regs.values.x rm (width sf)) extend shift) sub rd).LeftBy
        (execDpExt op sf rd rn rm extend shift) m := by
  apply leftBy_bind (Exec.reads_readGprOrSp rn sf m)
  intro r hr
  apply leftBy_bind (Exec.reads_readGpr rm sf _)
  intro r' _
  rw [gprOrSp_eq, RegisterFile.gprValue_congr hr, gprValue_eq]
  apply leftBy_finishAddSub hop (setWidth_widen _)
  exact setWidth_extendReg _ extend shift

theorem leftBy_execDpReg (hop : subtracts op = some sub) (rd rn rm : Nat) (shift : ShiftType)
    (amount : Nat) (m : Machine) :
    (addOrSub sf (m.regs.values.x rn (width sf))
      (shiftedOperand (m.regs.values.x rm (width sf)) amount shift) sub rd).LeftBy
        (execDpReg op sf rd rn rm shift amount) m := by
  apply leftBy_bind (Exec.reads_readGpr rn sf m)
  intro r hr
  apply leftBy_bind (Exec.reads_readGpr rm sf _)
  intro r' _
  rw [gprValue_eq, RegisterFile.gprValue_congr hr, gprValue_eq]
  have hshift := setWidth_applyShift ((m.regs.values.x rm (width sf)).setWidth 64) shift amount sf
  rw [setWidth_widen] at hshift
  rw [addSub_eq hop (setWidth_widen _) hshift rd]
  simp only [setsFlags_of_subtracts hop, if_true]
  exact leftBy_write _ _

theorem leftBy_execDpCarry (sub sf : Bool) (rd rn rm : Nat) (m : Machine) :
    (AdderUse.mk sf (m.regs.values.x rn (width sf)) (m.regs.values.x rm (width sf)) sub
      m.regs.nzcv.c rd).LeftBy (execDpCarry sub true sf rd rn rm) m := by
  apply leftBy_bind (Exec.reads_readGpr rn sf m)
  intro r hr
  apply leftBy_bind (Exec.reads_readGpr rm sf _)
  intro r' hr'
  apply leftBy_bind (Exec.reads_carryFlag _)
  intro r'' _
  have hcarry : r'.nzcv = m.regs.nzcv := congrArg RegisterValues.nzcv (hr'.trans hr)
  have hinvert : (if sub then ~~~((m.regs.values.x rm (width sf)).setWidth 64) &&& widthMask sf
      else (m.regs.values.x rm (width sf)).setWidth 64).setWidth (width sf) =
      if sub then ~~~(m.regs.values.x rm (width sf)) else m.regs.values.x rm (width sf) := by
    cases sub with
    | true =>
        rw [if_pos rfl, if_pos rfl, and_widthMask, setWidth_widen,
          BitVec.setWidth_not (width_le sf), setWidth_widen]
    | false => exact setWidth_widen _
  rw [gprValue_eq, RegisterFile.gprValue_congr hr, gprValue_eq, hcarry,
    addWithCarry_eq (setWidth_widen _) hinvert _ rd]
  exact leftBy_write _ _

/-- A compare that writes the flags alone. -/
theorem leftBy_setNzcv (ha : a.setWidth (width sf) = x) (hb : b.setWidth (width sf) = y)
    (sub : Bool) (m : Machine) :
    (addOrSub sf x y sub 31).LeftBy (do
      Exec.setNzcv (if sub then subFlags a b (a - b) sf else addFlags a b (a + b) sf)
      return .advance) m := by
  refine ⟨_, rfl, ?_, fun h => absurd h (Nat.lt_irrefl 31)⟩
  cases sub with
  | true => exact subFlags_eq ha hb (by rw [setWidth_sub_of_le, ha, hb]) 31
  | false =>
      exact addFlags_eq ha hb (by rw [BitVec.setWidth_add _ _ (width_le sf), ha, hb]) 31

theorem leftBy_execCondCompare (sub sf : Bool) (rn : Nat) (operand : CondCmpOperand)
    {cond : Condition} (nzcv : Nat) {m : Machine} (hcond : m.regs.nzcv.check cond = true) :
    (addOrSub sf (m.regs.values.x rn (width sf))
      (match operand with
        | .reg rm => m.regs.values.x rm (width sf)
        | .imm imm => BitVec.ofNat (width sf) imm) sub 31).LeftBy
        (execCondCompare sub sf rn operand cond nzcv) m := by
  apply leftBy_bind (Exec.reads_conditionHolds cond m)
  intro r hr
  simp only [hcond, if_true]
  apply leftBy_bind (Exec.reads_readGpr rn sf _)
  intro r' hr'
  rw [RegisterFile.gprValue_congr hr, gprValue_eq]
  cases operand with
  | reg rm =>
      apply leftBy_bind (Exec.reads_readGpr rm sf _)
      intro r'' _
      rw [RegisterFile.gprValue_congr (hr'.trans hr), gprValue_eq]
      exact leftBy_setNzcv (setWidth_widen _) (setWidth_widen _) sub _
  | imm imm =>
      apply leftBy_bind (Exec.reads_pure _ _)
      intro r'' _
      exact leftBy_setNzcv (setWidth_widen _) (BitVec.setWidth_ofNat_of_le (width_le sf) imm)
        sub _

end Forms

/-- Every flag-setting form leaves what the architecture's adder gives. -/
theorem leftBy_execute (vector : V → Exec ExecResult) {instr : Instruction V}
    (h : adderUse m.regs.values instr = some use) : use.LeftBy (execute vector instr) m := by
  cases instr with
  | dpImm op sf rd rn imm shift =>
      obtain ⟨sub, hop, rfl⟩ := Option.map_eq_some_iff.mp h
      exact leftBy_execDpImm hop rd rn imm shift m
  | dpReg op sf rd rn rm shift amount =>
      obtain ⟨sub, hop, rfl⟩ := Option.map_eq_some_iff.mp h
      exact leftBy_execDpReg hop rd rn rm shift amount m
  | dpRegExt op sf rd rn rm extend shift =>
      obtain ⟨sub, hop, rfl⟩ := Option.map_eq_some_iff.mp h
      exact leftBy_execDpExt hop rd rn rm extend shift m
  | dpCarry sub setFlags sf rd rn rm =>
      cases setFlags with
      | true =>
          cases h
          exact leftBy_execDpCarry sub sf rd rn rm m
      | false => cases h
  | condCompare sub sf rn operand cond nzcv =>
      simp only [adderUse] at h
      split at h
      · rename_i hcond
        cases h
        exact leftBy_execCondCompare sub sf rn operand nzcv hcond
      · cases h
  | _ => cases h

end Runs

end Execute

end Playground
