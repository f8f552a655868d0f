/-
Numbers that fill several registers: ADDS or SUBS on the low words, then one ADCS or SBCS
for each word above.
-/
import Playground.Isa.Flags
import Playground.Library.Ripple

namespace Playground

namespace Exec

variable {α β : Type}

/-- Code that leaves a general register alone, however it ends. -/
def KeepsGpr (x : Exec α) (i : Fin 31) : Prop := ∀ m, (x.run m).1.regs.gpr i = m.regs.gpr i

variable {i : Fin 31}

theorem keepsGpr_pure (a : α) : (pure a : Exec α).KeepsGpr i := fun _ => rfl

theorem KeepsGpr.bind {x : Exec α} {f : α → Exec β} (hx : x.KeepsGpr i)
    (hf : ∀ a, (f a).KeepsGpr i) : (x >>= f).KeepsGpr i := by
  intro m
  have hfirst := hx m
  rw [run_bind]
  rcases hrun : x.run m with ⟨m', result⟩
  rw [hrun] at hfirst
  cases result with
  | error e => exact hfirst
  | ok a => exact (hf a m').trans hfirst

theorem KeepsGpr.of_reads {x : Exec α} (h : ∀ m, ∃ a, x.Reads m a) : x.KeepsGpr i := by
  intro m
  obtain ⟨a, r, hrun, hvalues⟩ := h m
  rw [hrun]
  exact congrFun (congrArg RegisterValues.gpr hvalues) i

theorem keepsGpr_readGpr (index : Nat) (sf : Bool) : (readGpr index sf).KeepsGpr i :=
  .of_reads fun m => ⟨_, reads_readGpr index sf m⟩

theorem keepsGpr_carryFlag : carryFlag.KeepsGpr i := .of_reads fun m => ⟨_, reads_carryFlag m⟩

theorem keepsGpr_assignNzcv (flags : NzcvFlags) : (assignNzcv flags).KeepsGpr i := fun _ => rfl

theorem keepsGpr_writeGpr {index : Nat} (h : i.val ≠ index) (sf : Bool) (value : Word) :
    (writeGpr index sf value).KeepsGpr i := by
  intro m
  have hvalues := congrArg RegisterValues.gpr (m.regs.values_writeGpr index sf value)
  refine (congrFun hvalues i).trans ?_
  split
  · exact Function.update_of_ne (fun heq => h (congrArg Fin.val heq)) _ _
  · rfl

end Exec

namespace RegisterValues

theorem x_congr {r r' : RegisterValues} {index : Nat}
    (h : ∀ hi : index < 31, r.gpr ⟨index, hi⟩ = r'.gpr ⟨index, hi⟩) (w : Nat) :
    r.x index w = r'.x index w := by
  unfold x
  split
  · rename_i hi
    rw [h hi]
  · rfl

end RegisterValues

/-- The registers of one word of the numbers: the result's and the operands'. -/
structure Limb where
  rd : Nat
  rn : Nat
  rm : Nat

namespace Limb

/-- The low words start the chain. -/
def first {V : Type} (sub sf : Bool) (limb : Limb) : Instruction V :=
  .dpReg (if sub then .subs else .adds) sf limb.rd limb.rn limb.rm .lsl 0

/-- The words above take the carry of the ones below. -/
def next {V : Type} (sub sf : Bool) (limb : Limb) : Instruction V :=
  .dpCarry sub true sf limb.rd limb.rn limb.rm

def operands (sf : Bool) (r : RegisterValues) (limb : Limb) :
    BitVec (width sf) × BitVec (width sf) :=
  (r.x limb.rn (width sf), r.x limb.rm (width sf))

/-- How the words enter the adder. -/
def inputs (sub sf : Bool) (r : RegisterValues) (limb : Limb) :
    BitVec (width sf) × BitVec (width sf) :=
  ((limb.operands sf r).1, if sub then ~~~(limb.operands sf r).2 else (limb.operands sf r).2)

/-- A word's result does not fall on a register that a later word still needs. -/
def Before (early late : Limb) : Prop :=
  early.rd ≠ late.rd ∧ early.rd ≠ late.rn ∧ early.rd ≠ late.rm

end Limb

/-- The words of the numbers, least significant first: each result in a register of its own,
and none written before it is read. -/
structure Limbs where
  list : List Limb
  results : ∀ limb ∈ list, limb.rd < 31
  ordered : list.Pairwise Limb.Before

/-- The instructions that add or subtract the numbers. -/
def multiWord {V : Type} (sub sf : Bool) : List Limb → List (Instruction V)
  | [] => []
  | limb :: limbs => limb.first sub sf :: limbs.map (Limb.next sub sf)

namespace Execute

variable {V : Type} (vector : V → Exec ExecResult)

/-- One instruction after another. -/
def executeAll : List (Instruction V) → Exec ExecResult
  | [] => pure .advance
  | instr :: instrs => do
      let _ ← execute vector instr
      executeAll instrs

section Frame

variable {i : Fin 31} {rd : Nat} (h : i.val ≠ rd)
include h

theorem keepsGpr_execDpReg (op : DpOp) (sf : Bool) (rn rm : Nat) (shift : ShiftType)
    (amount : Nat) : (execDpReg op sf rd rn rm shift amount).KeepsGpr i := by
  apply Exec.KeepsGpr.bind (Exec.keepsGpr_readGpr rn sf)
  intro operand1
  apply Exec.KeepsGpr.bind (Exec.keepsGpr_readGpr rm sf)
  intro value
  simp only
  split
  · apply Exec.KeepsGpr.bind (Exec.keepsGpr_assignNzcv _)
    intro _
    exact (Exec.keepsGpr_writeGpr h sf _).bind fun _ => Exec.keepsGpr_pure _
  · exact (Exec.keepsGpr_writeGpr h sf _).bind fun _ => Exec.keepsGpr_pure _

theorem keepsGpr_execDpCarry (sub setFlags sf : Bool) (rn rm : Nat) :
    (execDpCarry sub setFlags sf rd rn rm).KeepsGpr i := by
  apply Exec.KeepsGpr.bind (Exec.keepsGpr_readGpr rn sf)
  intro operand1
  apply Exec.KeepsGpr.bind (Exec.keepsGpr_readGpr rm sf)
  intro value
  apply Exec.KeepsGpr.bind Exec.keepsGpr_carryFlag
  intro carry
  simp only
  split
  · apply Exec.KeepsGpr.bind (Exec.keepsGpr_assignNzcv _)
    intro _
    exact (Exec.keepsGpr_writeGpr h sf _).bind fun _ => Exec.keepsGpr_pure _
  · exact (Exec.keepsGpr_writeGpr h sf _).bind fun _ => Exec.keepsGpr_pure _

end Frame

/-- The digit of one word is written, and nothing else in x0-x30. -/
def Digit (sub sf carry : Bool) (limb : Limb) (m m' : Machine) : Prop :=
  let inputs := limb.inputs sub sf m.regs.values
  m'.regs.nzcv.c = Adder.carryOut inputs.1 inputs.2 carry ∧
    ∀ i, m'.regs.gpr i =
      if i.val = limb.rd then (Adder.sum inputs.1 inputs.2 carry).setWidth 64
      else m.regs.gpr i

theorem digit_of_leftBy {sub sf carry : Bool} {limb : Limb} {code : Exec ExecResult}
    {m : Machine}
    (huse : (AdderUse.mk sf (limb.operands sf m.regs.values).1
      (limb.operands sf m.regs.values).2 sub carry limb.rd).LeftBy code m)
    (hkeeps : ∀ i : Fin 31, i.val ≠ limb.rd → code.KeepsGpr i) :
    ∃ m', code.run m = (m', .ok .advance) ∧ Digit sub sf carry limb m m' := by
  obtain ⟨m', hrun, hflags, hsum⟩ := huse
  refine ⟨m', hrun, congrArg NzcvFlags.c hflags, ?_⟩
  intro i
  split
  · rename_i hi
    have hdigit := hsum (hi ▸ i.isLt)
    have heq : i = ⟨limb.rd, hi ▸ i.isLt⟩ := Fin.ext hi
    rw [heq]
    exact hdigit
  · rename_i hi
    have hkept := hkeeps i hi m
    rw [hrun] at hkept
    exact hkept

/-- The low words start without a carry, or without a borrow. -/
theorem digit_first (sub sf : Bool) (limb : Limb) (m : Machine) :
    ∃ m', (execute vector (limb.first sub sf)).run m = (m', .ok .advance) ∧
      Digit sub sf sub limb m m' := by
  have hop : subtracts (if sub then .subs else .adds) = some sub := by cases sub <;> rfl
  have hshift : shiftedOperand (m.regs.values.x limb.rm (width sf)) 0 .lsl =
      m.regs.values.x limb.rm (width sf) := by
    simp [shiftedOperand]
  have huse : (addOrSub sf (m.regs.values.x limb.rn (width sf))
      (shiftedOperand (m.regs.values.x limb.rm (width sf)) 0 .lsl) sub limb.rd).LeftBy _ m :=
    leftBy_execDpReg hop limb.rd limb.rn limb.rm .lsl 0 m
  rw [hshift] at huse
  exact digit_of_leftBy huse fun i hi => keepsGpr_execDpReg hi _ _ _ _ _ _

/-- The words above take the carry flag. -/
theorem digit_next (sub sf : Bool) (limb : Limb) (m : Machine) :
    ∃ m', (execute vector (limb.next sub sf)).run m = (m', .ok .advance) ∧
      Digit sub sf m.regs.nzcv.c limb m m' :=
  digit_of_leftBy (leftBy_execDpCarry sub sf limb.rd limb.rn limb.rm m) fun _ hi =>
    keepsGpr_execDpCarry hi _ _ _ _ _

section Chain

variable {sub sf carry : Bool} {limb : Limb} {m m' : Machine}

/-- The register written reads as the digit at its width, zeros above. -/
theorem Digit.written (h : Digit sub sf carry limb m m') (hrd : limb.rd < 31) :
    m'.regs.values.x limb.rd 64 =
      (Adder.sum (limb.inputs sub sf m.regs.values).1 (limb.inputs sub sf m.regs.values).2
        carry).setWidth 64 := by
  have hgpr := h.2 ⟨limb.rd, hrd⟩
  rw [if_pos rfl] at hgpr
  unfold RegisterValues.x
  rw [dif_pos hrd, BitVec.setWidth_eq]
  exact hgpr

theorem Digit.keeps_x (h : Digit sub sf carry limb m m') {index : Nat} (hne : limb.rd ≠ index)
    (w : Nat) : m'.regs.values.x index w = m.regs.values.x index w := by
  apply RegisterValues.x_congr
  intro hi
  exact (h.2 ⟨index, hi⟩).trans (if_neg (Ne.symm hne))

/-- The words above still hold what they held. -/
theorem Digit.inputs_eq (h : Digit sub sf carry limb m m') {late : Limb}
    (hbefore : limb.Before late) :
    late.inputs sub sf m'.regs.values = late.inputs sub sf m.regs.values := by
  unfold Limb.inputs Limb.operands
  rw [h.keeps_x hbefore.2.1, h.keeps_x hbefore.2.2]

theorem Digit.map_inputs (h : Digit sub sf carry limb m m') {limbs : List Limb}
    (hbefore : ∀ late ∈ limbs, limb.Before late) :
    limbs.map (Limb.inputs sub sf m'.regs.values) = limbs.map (Limb.inputs sub sf m.regs.values) :=
  List.map_congr_left fun late hlate => h.inputs_eq (hbefore late hlate)

/-- What a chain leaves: the digits in the result registers, the last carry in C, and the
registers it does not write as they were. -/
def Chain (sub sf carry : Bool) (limbs : List Limb) (m m' : Machine) : Prop :=
  let sums := Adder.ripple carry (limbs.map (Limb.inputs sub sf m.regs.values))
  limbs.map (fun limb => m'.regs.values.x limb.rd 64) = sums.1.map (·.setWidth 64) ∧
    m'.regs.nzcv.c = sums.2 ∧
    ∀ i : Fin 31, (∀ limb ∈ limbs, i.val ≠ limb.rd) → m'.regs.gpr i = m.regs.gpr i

theorem Digit.chain {m'' : Machine} {limbs : List Limb} (h : Digit sub sf carry limb m m')
    (hrd : limb.rd < 31) (hbefore : ∀ late ∈ limbs, limb.Before late)
    (hrest : Chain sub sf m'.regs.nzcv.c limbs m' m'') :
    Chain sub sf carry (limb :: limbs) m m'' := by
  obtain ⟨hsums, hcarry, hkept⟩ := hrest
  rw [h.map_inputs hbefore, h.1] at hsums hcarry
  refine ⟨?_, hcarry, ?_⟩
  · have hhead : m''.regs.values.x limb.rd 64 = m'.regs.values.x limb.rd 64 := by
      apply RegisterValues.x_congr
      intro hi
      exact hkept ⟨limb.rd, hi⟩ fun late hlate => (hbefore late hlate).1
    rw [List.map_cons, hhead, h.written hrd, hsums]
    rfl
  · intro i hi
    rw [hkept i fun late hlate => hi late (List.mem_cons_of_mem _ hlate), h.2 i,
      if_neg (hi limb List.mem_cons_self)]

theorem executeAll_cons {instr : Instruction V} (instrs : List (Instruction V))
    (h : (execute vector instr).run m = (m', .ok .advance)) :
    (executeAll vector (instr :: instrs)).run m = (executeAll vector instrs).run m' :=
  Exec.run_bind_ok h

/-- The words above ripple the carry flag through. -/
theorem chain_next (sub sf : Bool) (limbs : List Limb) (hresults : ∀ limb ∈ limbs, limb.rd < 31)
    (hordered : limbs.Pairwise Limb.Before) (m : Machine) :
    ∃ m', (executeAll vector (limbs.map (Limb.next sub sf))).run m = (m', .ok .advance) ∧
      Chain sub sf m.regs.nzcv.c limbs m m' := by
  induction limbs generalizing m with
  | nil => exact ⟨m, rfl, rfl, rfl, fun _ _ => rfl⟩
  | cons limb limbs ih =>
      rw [List.pairwise_cons] at hordered
      obtain ⟨m', hrun, hdigit⟩ := digit_next vector sub sf limb m
      obtain ⟨m'', hrest, hchain⟩ :=
        ih (fun late hlate => hresults late (List.mem_cons_of_mem _ hlate)) hordered.2 m'
      refine ⟨m'', ?_, hdigit.chain (hresults limb List.mem_cons_self) hordered.1 hchain⟩
      rw [List.map_cons, executeAll_cons vector _ hrun, hrest]

/-- The whole chain starts from the low words' carry. -/
theorem chain_multiWord (sub sf : Bool) {limbs : Limbs} (hne : limbs.list ≠ []) (m : Machine) :
    ∃ m', (executeAll vector (multiWord sub sf limbs.list)).run m = (m', .ok .advance) ∧
      Chain sub sf sub limbs.list m m' := by
  obtain ⟨list, hresults, hordered⟩ := limbs
  cases list with
  | nil => exact absurd rfl hne
  | cons limb limbs =>
      rw [List.pairwise_cons] at hordered
      obtain ⟨m', hrun, hdigit⟩ := digit_first vector sub sf limb m
      obtain ⟨m'', hrest, hchain⟩ := chain_next vector sub sf limbs
        (fun late hlate => hresults late (List.mem_cons_of_mem _ hlate)) hordered.2 m'
      refine ⟨m'', ?_, hdigit.chain (hresults limb List.mem_cons_self) hordered.1 hchain⟩
      exact (executeAll_cons vector _ hrun).trans hrest

end Chain

end Execute

open Adder (value)

/-- The number in the registers a word of each limb names. -/
def number (sf : Bool) (r : RegisterValues) (word : Limb → Nat) (limbs : List Limb) : Nat :=
  value (limbs.map fun limb => r.x (word limb) (width sf))

namespace RegisterValues

theorem setWidth_x (r : RegisterValues) (index : Nat) (sf : Bool) :
    (r.x index 64).setWidth (width sf) = r.x index (width sf) := by
  unfold x
  split
  · rw [BitVec.setWidth_setWidth_of_le _ (width_le sf)]
  · simp

end RegisterValues

namespace Execute

variable {V : Type} (vector : V → Exec ExecResult)

/-- The digits in the result registers at their width. -/
theorem Chain.digits {sub sf carry : Bool} {limbs : List Limb} {m m' : Machine}
    (h : Chain sub sf carry limbs m m') :
    limbs.map (fun limb => m'.regs.values.x limb.rd (width sf)) =
      (Adder.ripple carry (limbs.map (Limb.inputs sub sf m.regs.values))).1 := by
  have hcut := congrArg (List.map fun a : Word => a.setWidth (width sf)) h.1
  simp only [List.map_map, Function.comp_def, RegisterValues.setWidth_x, setWidth_widen,
    List.map_id'] at hcut
  exact hcut

theorem Chain.zeroExtended {sub sf carry : Bool} {limbs : List Limb} {m m' : Machine}
    (h : Chain sub sf carry limbs m m') :
    ∀ limb ∈ limbs, m'.regs.values.x limb.rd 64 =
      (m'.regs.values.x limb.rd (width sf)).setWidth 64 := by
  have hwide := h.1
  rw [← h.digits, List.map_map] at hwide
  exact List.map_inj_left.mp hwide

theorem ripple_inputs (sub sf : Bool) (limbs : List Limb) (r : RegisterValues) :
    value (Adder.ripple sub (limbs.map (Limb.inputs sub sf r))).1 =
        (number sf r Limb.rn limbs +
          if sub then 2 ^ (width sf * limbs.length) - number sf r Limb.rm limbs
          else number sf r Limb.rm limbs) % 2 ^ (width sf * limbs.length) ∧
      (Adder.ripple sub (limbs.map (Limb.inputs sub sf r))).2 =
        if sub then decide (number sf r Limb.rm limbs ≤ number sf r Limb.rn limbs)
        else decide (2 ^ (width sf * limbs.length) ≤
          number sf r Limb.rn limbs + number sf r Limb.rm limbs) := by
  cases sub with
  | true =>
      have hinputs : limbs.map (Limb.inputs true sf r) =
          (limbs.map (Limb.operands sf r)).map fun p => (p.1, ~~~p.2) := by
        rw [List.map_map]
        rfl
      have hripple := Adder.ripple_true (limbs.map (Limb.operands sf r))
      rw [List.length_map, List.map_map (f := Limb.operands sf r) (g := Prod.fst),
        List.map_map (f := Limb.operands sf r) (g := Prod.snd)] at hripple
      rw [hinputs]
      exact hripple
  | false =>
      have hripple := Adder.ripple_false (limbs.map (Limb.operands sf r))
      rw [List.length_map, List.map_map, List.map_map] at hripple
      exact hripple

/-- A chain leaves the sum or the difference of the numbers modulo their size, each word
zero-extended, with C the carry out or the absence of a borrow. -/
theorem multiWord_spec (sub sf : Bool) {limbs : Limbs} (hne : limbs.list ≠ []) (m : Machine) :
    ∃ m', (executeAll vector (multiWord sub sf limbs.list)).run m = (m', .ok .advance) ∧
      number sf m'.regs.values Limb.rd limbs.list =
        (number sf m.regs.values Limb.rn limbs.list +
          if sub then 2 ^ (width sf * limbs.list.length) -
            number sf m.regs.values Limb.rm limbs.list
          else number sf m.regs.values Limb.rm limbs.list) %
            2 ^ (width sf * limbs.list.length) ∧
      m'.regs.nzcv.c =
        (if sub then decide (number sf m.regs.values Limb.rm limbs.list ≤
            number sf m.regs.values Limb.rn limbs.list)
          else decide (2 ^ (width sf * limbs.list.length) ≤
            number sf m.regs.values Limb.rn limbs.list +
              number sf m.regs.values Limb.rm limbs.list)) ∧
      (∀ limb ∈ limbs.list, m'.regs.values.x limb.rd 64 =
        (m'.regs.values.x limb.rd (width sf)).setWidth 64) ∧
      ∀ i : Fin 31, (∀ limb ∈ limbs.list, i.val ≠ limb.rd) →
        m'.regs.gpr i = m.regs.gpr i := by
  obtain ⟨m', hrun, hchain⟩ := chain_multiWord vector sub sf hne m
  obtain ⟨hvalue, hcarry⟩ := ripple_inputs sub sf limbs.list m.regs.values
  refine ⟨m', hrun, ?_, hchain.2.1.trans hcarry, hchain.zeroExtended, hchain.2.2⟩
  unfold number
  rw [hchain.digits]
  exact hvalue

/-- Two words at 32 bits, each result in place of its first operand. -/
def pair : Limbs where
  list := [⟨0, 0, 2⟩, ⟨1, 1, 3⟩]
  results := by decide
  ordered := by simp [Limb.Before]

/-- Two to the 32nd less one borrows from the upper word. -/
theorem multiWord_spec_pair :
    ∃ m' : Machine, (executeAll (V := Empty) nofun (multiWord true false pair.list)).run
        ⟨{ RegisterFile.new with gpr := ![0, 1, 1, 0] ∘ Fin.ofNat 4 ∘ Fin.val }, .new, .new⟩ =
          (m', .ok .advance) ∧
      number false m'.regs.values Limb.rd pair.list = 2 ^ 32 - 1 ∧ m'.regs.nzcv.c = true := by
  have hne : pair.list ≠ [] := nofun
  obtain ⟨m', hrun, hvalue, hcarry, -⟩ := multiWord_spec (V := Empty) nofun true false hne
    ⟨{ RegisterFile.new with gpr := ![0, 1, 1, 0] ∘ Fin.ofNat 4 ∘ Fin.val }, .new, .new⟩
  refine ⟨m', hrun, hvalue.trans ?_, hcarry.trans ?_⟩
  · decide
  · decide

end Execute

end Playground
