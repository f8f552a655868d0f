/-
What the frame scan's registers hold on straight-line execution: a base keeps its address, and
a function on the course's pattern keeps x29 and sp, as long as no instruction of a kind the
scan's list leaves out writes the register.
-/
import Playground.Frames.Layout
import Playground.Isa.Allocated
import Playground.Isa.Values

namespace Playground

namespace Frames

variable {W : Type} (calls : W → RegisterFile → List RegCall)

/-- The kinds that write a slot with no case in `written` or `movesSp`. -/
def LeftOut (slot : Slot) : Instruction (VectorInstr W) → Prop
  | .dpRegExt _ _ rd _ _ _ _ | .dpCarry _ _ _ rd _ _ | .dataProc1 _ _ rd _
  | .varShift _ rd _ _ _ | .extr _ rd _ _ _ | .condSel _ _ rd _ _ _ | .mulDiv _ _ rd _ _
  | .mulAccumulate _ _ rd _ _ _ | .mulWide _ rd _ _ _ | .bitfield _ _ rd _ _ _
  | .adr _ rd _ | .ldrLiteral _ rd _ => slot.Named rd
  | .brImm link _ => link = true ∧ slot.Named 30
  | .brReg op _ => op = .blr ∧ slot.Named 30
  | .svc imm16 => imm16 = 0 ∧ slot.Named 0
  | .vector (.ldStStructure s _) => s.post.isSome = true ∧ slot.NamedOrSp s.rn
  | .vector (.registers w) => ∃ regs, ∃ op ∈ calls w regs, op.Writes slot
  | _ => False

def IsCall : Instruction (VectorInstr W) → Prop
  | .brImm link _ => link = true
  | .brReg op _ => op = .blr
  | _ => False

/-- One instruction on straight-line execution: it falls through, it is a call that comes back
with the registers a callee keeps, or it is a syscall, which leaves its result in x0. -/
inductive Falls (i : Instruction (VectorInstr W)) (m m' : Machine) : Prop
  | advances (m₁ : Machine)
      (hrun : (execute (VectorInstr.run calls) i).run m = (m₁, .ok .advance))
      (hkept : ∀ slot : Slot, slot.read m'.regs = slot.read m₁.regs)
  | returns (hcall : IsCall i) (hsp : m'.regs.sp = m.regs.sp)
      (hkept : ∀ r : Fin 31, 19 ≤ r.val → r.val ≤ 29 → m'.regs.gpr r = m.regs.gpr r)
  | serves (hsvc : i = .svc 0)
      (hkept : ∀ slot : Slot, slot ≠ .gpr 0 → slot.read m'.regs = slot.read m.regs)

variable (vec : VectorDecoder (VectorInstr W))

/-- Straight-line execution of some words, each decoding and falling through. -/
inductive Straight : List (Option (BitVec 32)) → Machine → Machine → Prop
  | nil (m : Machine) : Straight [] m m
  | cons {word : Option (BitVec 32)} {words : List (Option (BitVec 32))}
      {i : Instruction (VectorInstr W)} {m m₁ m' : Machine}
      (hdecode : instructionAt vec word = some i) (hfalls : Falls calls i m m₁)
      (hrest : Straight words m₁ m') : Straight (word :: words) m m'

section Bits

theorem getLsbD_bit (n : Nat) (r : Fin 31) : (bit n).getLsbD r = true ↔ n = r.val := by
  rw [bit]
  by_cases h : n < 31
  · rw [if_pos h, BitVec.getLsbD_shiftLeft, BitVec.getLsbD_one]
    have hr := r.isLt
    simp only [Bool.and_eq_true, decide_eq_true_eq, Bool.not_eq_true', decide_eq_false_iff_not]
    omega
  · rw [if_neg h]
    have hr := r.isLt
    simp only [BitVec.ofNat_eq_ofNat, BitVec.getLsbD_zero, Bool.false_eq_true, false_iff]
    omega

theorem getLsbD_writeback {rn : Nat} {mode : IndexMode} {r : Fin 31}
    (h : Execute.writesBase rn mode (.gpr r)) : (writeback rn mode).getLsbD r = true := by
  obtain ⟨hmode, hrn⟩ := h
  rw [writeback, if_neg hmode]
  exact (getLsbD_bit rn r).mpr hrn

theorem getLsbD_or {a b : BitVec 32} {r : Nat} :
    (a ||| b).getLsbD r = true ↔ a.getLsbD r = true ∨ b.getLsbD r = true := by
  rw [BitVec.getLsbD_or, Bool.or_eq_true]

/-- x0 to x18, which a call may change. -/
theorem le_eighteen_iff (r : Fin 31) : (0x7FFFF : BitVec 32).getLsbD r = true ↔ r.val ≤ 18 := by
  revert r
  decide

end Bits

section Instructions

variable {calls} {i : Instruction (VectorInstr W)} {r : Fin 31}

theorem named_of_ite {c : Prop} [Decidable c] {rd : Nat}
    (h : if c then (Slot.gpr r).Named rd else (Slot.gpr r).NamedOrSp rd) : rd = r.val := by
  by_cases hc : c
  · rwa [if_pos hc] at h
  · rwa [if_neg hc] at h

theorem eq_sp_of_ite {c : Prop} [Decidable c] {rd : Nat} (hfive : rd < 32)
    (h : if c then Slot.sp.Named rd else Slot.sp.NamedOrSp rd) : ¬ c ∧ rd = 31 := by
  by_cases hc : c
  · rw [if_pos hc] at h
    exact absurd h id
  · rw [if_neg hc] at h
    exact ⟨hc, Nat.le_antisymm (Nat.le_of_lt_succ hfive) h⟩

/-- `written` reports every general register the executor writes, but for the kinds left out. -/
theorem overwrites_of_writes (h : i.Writes calls (.gpr r)) (hleft : ¬ LeftOut calls (.gpr r) i) :
    Overwrites i r := by
  have hnamed {n : Nat} (hn : n = r.val) : (bit n).getLsbD r = true := (getLsbD_bit n r).mpr hn
  cases i with
  | dpImm op sf rd rn imm shift => exact hnamed (named_of_ite h)
  | logImm op sf rd rn imm setFlags => exact hnamed (named_of_ite h)
  | dpRegExt op sf rd rn rm extend shift => exact absurd (named_of_ite h) hleft
  | svc imm16 => exact absurd h id
  | dpReg op sf rd rn rm shift amount => exact hnamed h
  | moveWide op sf rd imm16 hw => exact hnamed h
  | logReg op sf rd rn rm shift amount setFlags invert => exact hnamed h
  | ldSt op rt rn offset size mode =>
      cases op with
      | ldr =>
          rcases h with ⟨-, hrt⟩ | hbase
          · exact getLsbD_or.mpr (Or.inl (hnamed hrt))
          · exact getLsbD_or.mpr (Or.inr (getLsbD_writeback hbase))
      | str =>
          rcases h with ⟨hop, -⟩ | hbase
          · cases hop
          · exact getLsbD_writeback hbase
  | ldrSignExtended rt rn offset size mode sf =>
      rcases h with hrt | hbase
      · exact getLsbD_or.mpr (Or.inl (hnamed hrt))
      · exact getLsbD_or.mpr (Or.inr (getLsbD_writeback hbase))
  | ldStPair op sf rt rt2 rn imm7 mode =>
      have hload (hop : op ≠ .stp ∧ ((Slot.gpr r).Named rt ∨ (Slot.gpr r).Named rt2)) :
          (bit rt ||| bit rt2).getLsbD r = true :=
        getLsbD_or.mpr (hop.2.imp hnamed hnamed)
      cases op with
      | stp =>
          rcases h with ⟨hop, -⟩ | hbase
          · exact absurd rfl hop
          · exact getLsbD_writeback hbase
      | ldp =>
          rcases h with hop | hbase
          · exact getLsbD_or.mpr (Or.inl (hload hop))
          · exact getLsbD_or.mpr (Or.inr (getLsbD_writeback hbase))
      | ldpsw =>
          rcases h with hop | hbase
          · exact getLsbD_or.mpr (Or.inl (hload hop))
          · exact getLsbD_or.mpr (Or.inr (getLsbD_writeback hbase))
  | fpLdSt load ft rn offset size mode unscaled => exact getLsbD_writeback h
  | fpLdStPair op size rt rt2 rn imm7 mode noAllocate => exact getLsbD_writeback h
  | vector instr =>
      cases instr with
      | ldStStructure s wf => exact absurd h hleft
      | registers w => exact absurd h hleft
  | _ => exact absurd h hleft

theorem movesSp_base {rn : Nat} {mode : IndexMode} (hfive : rn < 32)
    (h : Execute.writesBase rn mode .sp) :
    (rn == 31 && decide (mode ≠ .signedOffset)) = true := by
  obtain ⟨hmode, hrn⟩ := h
  have heq : rn = 31 := Nat.le_antisymm (Nat.le_of_lt_succ hfive) hrn
  rw [heq, decide_eq_true hmode]
  rfl

/-- `movesSp` reports every change of sp, but for the kinds left out. -/
theorem movesSp_of_writes (hfive : FiveBits i) (h : i.Writes calls .sp)
    (hleft : ¬ LeftOut calls .sp i) : movesSp i = true := by
  cases i with
  | dpImm op sf rd rn imm shift =>
      obtain ⟨hflags, rfl⟩ := eq_sp_of_ite hfive h
      simp [movesSp, hflags]
  | dpRegExt op sf rd rn rm extend shift =>
      obtain ⟨hflags, rfl⟩ := eq_sp_of_ite hfive h
      simp [movesSp, hflags]
  | logImm op sf rd rn imm setFlags =>
      obtain ⟨hflags, rfl⟩ := eq_sp_of_ite hfive h
      simp [movesSp, hflags]
  | svc imm16 => exact absurd h id
  | ldSt op rt rn offset size mode =>
      rcases h with ⟨-, hrt⟩ | hbase
      · exact absurd hrt id
      · exact movesSp_base hfive hbase
  | ldrSignExtended rt rn offset size mode sf =>
      rcases h with hrt | hbase
      · exact absurd hrt id
      · exact movesSp_base hfive hbase
  | ldStPair op sf rt rt2 rn imm7 mode =>
      rcases h with ⟨-, hrt | hrt⟩ | hbase
      · exact absurd hrt id
      · exact absurd hrt id
      · exact movesSp_base hfive hbase
  | fpLdSt load ft rn offset size mode unscaled => exact movesSp_base hfive h
  | fpLdStPair op size rt rt2 rn imm7 mode noAllocate => exact movesSp_base hfive h
  | vector instr =>
      cases instr with
      | ldStStructure s wf => exact absurd h hleft
      | registers w => exact absurd h hleft
  | _ => exact absurd h hleft

/-- A register `written` does not report keeps its value, unless its kind is left out. -/
theorem gpr_of_falls {m m' : Machine} (h : Falls calls i m m') (hover : ¬ Overwrites i r)
    (hleft : ¬ LeftOut calls (.gpr r) i) : m'.regs.gpr r = m.regs.gpr r := by
  cases h with
  | advances m₁ hrun hkept =>
      have hwrites : ¬ i.Writes calls (.gpr r) := fun hw => hover (overwrites_of_writes hw hleft)
      have hconserves := conserves_execute calls hwrites m
      rw [hrun] at hconserves
      exact (hkept (.gpr r)).trans hconserves
  | serves hsvc hkept =>
      apply hkept (.gpr r)
      rintro heq
      cases heq
      exact hleft (hsvc ▸ ⟨rfl, rfl⟩)
  | returns hcall hsp hkept =>
      have hbounds : ¬ r.val ≤ 18 ∧ r.val ≠ 30 := by
        constructor
        · intro hle
          have hbits := (le_eighteen_iff r).mpr hle
          cases i with
          | brImm link offset =>
              cases link with
              | true => exact hover hbits
              | false => cases hcall
          | brReg op rn =>
              cases hcall
              exact hover hbits
          | _ => exact hcall
        · intro hthirty
          cases i with
          | brImm link offset => exact hleft ⟨hcall, hthirty.symm⟩
          | brReg op rn => exact hleft ⟨hcall, hthirty.symm⟩
          | _ => exact hcall
      have hr := r.isLt
      apply hkept r
      · omega
      · omega

/-- sp keeps its value where `movesSp` says so, unless its kind is left out. -/
theorem sp_of_falls {m m' : Machine} (h : Falls calls i m m') (hfive : FiveBits i)
    (hmoves : ¬ movesSp i = true) (hleft : ¬ LeftOut calls .sp i) : m'.regs.sp = m.regs.sp := by
  cases h with
  | advances m₁ hrun hkept =>
      have hwrites : ¬ i.Writes calls .sp := fun hw => hmoves (movesSp_of_writes hfive hw hleft)
      have hconserves := conserves_execute calls hwrites m
      rw [hrun] at hconserves
      exact (hkept .sp).trans hconserves
  | returns hcall hsp hkept => exact hsp
  | serves hsvc hkept => exact hkept .sp nofun

theorem addSub_add (a b : Word) : (Execute.addSub .add a b true).1 = a + b :=
  BitVec.and_allOnes

theorem leaves_execDpImm (r : Fin 31) (imm shift : Nat) (m : Machine) :
    (Execute.execDpImm .add true r 29 imm shift).Leaves m r
      (m.regs.gpr 29 + BitVec.ofNat 64 imm <<< shift) := by
  apply Exec.Leaves.of_bind (Exec.reads_readGprOrSp 29 true m)
  intro regs _
  have hwrite : Exec.writeGprOrSp r true = Exec.writeGpr r true := by
    funext value
    exact if_neg (Nat.not_le_of_lt r.isLt)
  have hlow : m.regs.gprValue 29 true = m.regs.gpr 29 := rfl
  simp only [Execute.finishAddSub, addSub_add, hwrite, hlow]
  exact Exec.leaves_writeGpr r.isLt true _ _

/-- An `add xN, x29, imm` leaves xN at x29 + imm. -/
theorem gpr_of_falls_baseSet {m m' : Machine} {k : Word} (h : Falls calls i m m')
    (hset : baseSet r i = some k) : m'.regs.gpr r = m.regs.gpr 29 + k := by
  rw [baseSet.eq_def] at hset
  split at hset
  case h_2 => cases hset
  case h_1 rd imm shift =>
    split at hset
    case isFalse => cases hset
    case isTrue hrd =>
      cases hset
      cases h with
      | returns hcall => exact absurd hcall id
      | serves hsvc => cases hsvc
      | advances m₁ hrun hkept =>
          subst hrd
          have hleaves := leaves_execDpImm r imm shift m
          exact (hkept (.gpr r)).trans (hleaves.unique hrun)

end Instructions

section Scans

variable {calls} {vec} {words : List (Option (BitVec 32))} {word : Option (BitVec 32)}
  {r : Fin 31} {k : Word}

theorem scan_concat (words : List (Option (BitVec 32))) (word : Option (BitVec 32)) :
    scan vec (words ++ [word]) = (scan vec words).next (instructionAt vec word) :=
  List.foldl_append

theorem count_next (f : Found) (i : Option (Instruction (VectorInstr W))) :
    (f.next i).count = f.count + 1 := by
  cases i with
  | none => rfl
  | some i => rfl

theorem scan_count (words : List (Option (BitVec 32))) :
    (scan vec words).count = words.length := by
  induction words using List.reverseRecOn with
  | nil => rfl
  | append_singleton words word ih =>
      rw [scan_concat, count_next, ih, List.length_append]
      rfl

theorem Straight.concat_inv {m m' : Machine} (h : Straight calls vec (words ++ [word]) m m') :
    ∃ m₁ i, Straight calls vec words m m₁ ∧ instructionAt vec word = some i ∧
      Falls calls i m₁ m' := by
  induction words generalizing m with
  | nil =>
      cases h with
      | cons hdecode hfalls hrest =>
          cases hrest
          exact ⟨m, _, .nil m, hdecode, hfalls⟩
  | cons head words ih =>
      cases h with
      | cons hdecode hfalls hrest =>
          obtain ⟨m₁, i, hstraight, hi, hlast⟩ := ih hrest
          exact ⟨m₁, i, .cons hdecode hfalls hstraight, hi, hlast⟩

variable (calls) (vec)

/-- `add` is the last word of a function that sets xN's base, to offset k, and `rest` is what
follows it. -/
def SetAt (words : List (Option (BitVec 32))) (r : Fin 31) (k : Word)
    (add : Option (BitVec 32)) (rest : List (Option (BitVec 32))) : Prop :=
  (∃ front, words = front ++ add :: rest) ∧
    (instructionAt vec add).bind (baseSet r) = some k ∧
    ∀ word ∈ rest, (instructionAt vec word).bind (baseSet r) = none

/-- No word writes a slot by a kind the scan leaves out. -/
def NoneLeftOut (slot : Slot) (words : List (Option (BitVec 32))) : Prop :=
  ∀ word ∈ words, ∀ i, instructionAt vec word = some i → ¬ LeftOut calls slot i

/-- A base the scan has at the end of some words is the one straight-line execution from its
`add` leaves in the register. -/
def BasesHold (words : List (Option (BitVec 32))) : Prop :=
  ∀ r k, (scan vec words).bases r = some k → ∃ add rest, SetAt vec words r k add rest ∧
    ∀ m m', Straight calls vec (add :: rest) m m' → m'.regs.gpr r = m.regs.gpr 29 + k

/-- sp and x29 hold what they held. -/
def SameFrame (m m' : Machine) : Prop :=
  m'.regs.sp = m.regs.sp ∧ m'.regs.gpr 29 = m.regs.gpr 29

variable {calls} {vec}

theorem bases_concat (h : (scan vec (words ++ [word])).bases r = some k) :
    (instructionAt vec word).bind (baseSet r) = some k ∨
    (scan vec words).bases r = some k ∧ (instructionAt vec word).bind (baseSet r) = none ∧
      ∀ i, instructionAt vec word = some i → ¬ Overwrites i r := by
  rw [scan_concat] at h
  cases hi : instructionAt vec word with
  | none =>
      rw [hi] at h
      exact Or.inr ⟨h, rfl, fun _ hsome => nomatch hsome⟩
  | some i =>
      rw [hi] at h
      simp only [Found.next] at h
      cases hset : baseSet r i with
      | some k' =>
          rw [hset] at h
          exact Or.inl (hset.trans h)
      | none =>
          rw [hset] at h
          by_cases hover : Overwrites i r
          · rw [if_pos hover] at h
            cases h
          · rw [if_neg hover] at h
            refine Or.inr ⟨h, hset, ?_⟩
            rintro j ⟨⟩
            exact hover

/-- The base of a scan was set by one of its words, and straight-line execution keeps it. -/
theorem exists_setAt (h : (scan vec words).bases r = some k) :
    ∃ add rest, SetAt vec words r k add rest ∧
      (NoneLeftOut calls vec (.gpr r) rest →
        ∀ m m', Straight calls vec (add :: rest) m m' →
          m'.regs.gpr r = m.regs.gpr 29 + k) := by
  induction words using List.reverseRecOn with
  | nil => cases h
  | append_singleton words word ih =>
      rcases bases_concat h with hset | ⟨hbase, hnone, hover⟩
      · refine ⟨word, [], ⟨⟨words, rfl⟩, hset, fun _ h => nomatch h⟩, ?_⟩
        rintro - m m' hstraight
        cases hstraight with
        | cons hdecode hfalls hrest =>
            cases hrest
            rw [hdecode] at hset
            exact gpr_of_falls_baseSet hfalls hset
      · obtain ⟨add, rest, ⟨⟨front, hwords⟩, hset, hrest⟩, hrun⟩ := ih hbase
        refine ⟨add, rest ++ [word], ⟨⟨front, ?_⟩, hset, ?_⟩, ?_⟩
        · rw [hwords, List.append_assoc]
          rfl
        · intro w hw
          rcases List.mem_append.mp hw with hw | hw
          · exact hrest w hw
          · rwa [List.mem_singleton.mp hw]
        · intro hleft m m' hstraight
          have hfull : Straight calls vec ((add :: rest) ++ [word]) m m' := hstraight
          obtain ⟨m₁, i, hfirst, hi, hlast⟩ := hfull.concat_inv
          have hm₁ : m₁.regs.gpr r = m.regs.gpr 29 + k :=
            hrun (fun w hw => hleft w (List.mem_append_left [word] hw)) m m₁ hfirst
          have hword : ¬ LeftOut calls (.gpr r) i :=
            hleft word (List.mem_append_right rest (List.mem_singleton_self word)) i hi
          exact (gpr_of_falls hlast (hover i hi) hword).trans hm₁

theorem fiveBits_of_instructionAt {i : Instruction (VectorInstr W)}
    (h : instructionAt vec word = some i) : FiveBits i := by
  cases word with
  | none => cases h
  | some w =>
      cases hdecode : decode vec w with
      | error e => simp [instructionAt, hdecode, Except.toOption] at h
      | ok j =>
          have hj : j = i := by simpa [instructionAt, hdecode, Except.toOption] using h
          exact (decode_yields w vec).of_ok i (hdecode.trans (congrArg _ hj))

/-- What a function on the pattern does past its first two words is not a change of the frame
the scan can see. -/
theorem not_strays (h : (scan vec words).strays = false) {index : Nat}
    {i : Instruction (VectorInstr W)} (hword : words[index]? = some word) (hindex : 2 ≤ index)
    (hi : instructionAt vec word = some i) (hldp : isFrameLdp i = false) :
    ¬ Overwrites i 29 ∧ ¬ movesSp i = true := by
  induction words using List.reverseRecOn with
  | nil => cases hword
  | append_singleton words last ih =>
      rw [scan_concat] at h
      have hstep : (scan vec words).strays = false ∧ ∀ j, instructionAt vec last = some j →
          2 ≤ words.length → isFrameLdp j = false → ¬ Overwrites j 29 ∧ ¬ movesSp j = true := by
        cases hj : instructionAt vec last with
        | none =>
            rw [hj] at h
            exact ⟨h, fun _ hsome => nomatch hsome⟩
        | some j =>
            rw [hj] at h
            simp only [Found.next, scan_count] at h
            by_cases hcount : words.length < 2
            · rw [if_pos hcount] at h
              exact ⟨h, fun _ _ hle => absurd hle (Nat.not_le_of_lt hcount)⟩
            · rw [if_neg hcount, Bool.or_eq_false_iff] at h
              refine ⟨h.1, ?_⟩
              rintro j ⟨⟩ - hldp
              simpa [hldp] using h.2
      by_cases hlast : index < words.length
      · rw [List.getElem?_append_left hlast] at hword
        exact ih hstep.1 hword
      · have hlen : index = words.length := by
          have hlt := (List.getElem?_eq_some_iff.mp hword).1
          rw [List.length_append, List.length_singleton] at hlt
          omega
        rw [hlen, List.getElem?_concat_length] at hword
        cases hword
        exact hstep.2 i hi (hlen ▸ hindex) hldp

end Scans

/-- The scan is sound for every function whose words write the register, x29 or sp by no kind
its two lists leave out. -/
theorem scan_sound (words : List (Option (BitVec 32))) :
    (∀ r k, (scan vec words).bases r = some k → ∃ add rest, SetAt vec words r k add rest ∧
      (NoneLeftOut calls vec (.gpr r) rest →
        ∀ m m', Straight calls vec (add :: rest) m m' →
          m'.regs.gpr r = m.regs.gpr 29 + k)) ∧
    (courseFrame vec words = true → ∀ index word i, words[index]? = some word → 2 ≤ index →
      instructionAt vec word = some i → isFrameLdp i = false →
      ¬ LeftOut calls (.gpr 29) i → ¬ LeftOut calls .sp i →
      (∀ m, SameFrame m ((execute (VectorInstr.run calls) i).run m).1) ∧
        ∀ m m', Falls calls i m m' → SameFrame m m') := by
  constructor
  · intro r k h
    exact exists_setAt h
  · intro hcourse index word i hword hindex hi hldp hfp hsp
    simp only [courseFrame, Bool.and_eq_true, Bool.not_eq_true'] at hcourse
    obtain ⟨hover, hmoves⟩ := not_strays hcourse.2 hword hindex hi hldp
    have hfive : FiveBits i := fiveBits_of_instructionAt hi
    constructor
    · intro m
      have hw29 : ¬ i.Writes calls (.gpr 29) := fun h => hover (overwrites_of_writes h hfp)
      have hwsp : ¬ i.Writes calls .sp := fun h => hmoves (movesSp_of_writes hfive h hsp)
      exact ⟨conserves_execute calls hwsp m, conserves_execute calls hw29 m⟩
    · intro m m' h
      exact ⟨sp_of_falls h hfive hmoves hsp, gpr_of_falls h hover hfp⟩

/-- The integer instructions and the structure loads and stores. -/
def plainUnit : VectorDecoder (VectorInstr Empty) :=
  VectorInstr.decoder fun w => .error (.unknownInstruction w)

def zeroed : Machine := ⟨.new, .new, .new⟩

/-- `add x9, x29, #16` and `mul x9, x9, x10`. -/
def multiplied : List (Option (BitVec 32)) := [some 0x910043A9, some 0x9B0A7D29]

theorem straight_multiplied :
    ∃ m', Straight (fun w : Empty => nomatch w) plainUnit multiplied zeroed m' ∧
      m'.regs.gpr 9 = 0 := by
  have hadd : instructionAt plainUnit (some 0x910043A9) = some (.dpImm .add true 9 29 16 0) := by
    rfl
  have hmul : instructionAt plainUnit (some 0x9B0A7D29) = some (.mulDiv .mul true 9 9 10) := by
    rfl
  refine ⟨_, .cons hadd (.advances _ (Prod.ext rfl rfl) fun _ => rfl)
    (.cons hmul (.advances _ (Prod.ext rfl rfl) fun _ => rfl) (.nil _)), ?_⟩
  decide

/-- A multiply into the register leaves its base in the scan. -/
theorem not_basesHold_multiplied :
    ¬ BasesHold (fun w : Empty => nomatch w) plainUnit multiplied := by
  intro h
  obtain ⟨add, rest, ⟨⟨front, hwords⟩, hset, hrest⟩, hrun⟩ := h 9 16 (by decide)
  obtain ⟨m', hstraight, hzero⟩ := straight_multiplied
  cases front with
  | nil =>
      rw [List.nil_append] at hwords
      rw [hwords] at hstraight
      have hbase := hrun zeroed m' hstraight
      rw [hzero] at hbase
      exact absurd hbase (by decide)
  | cons head front =>
      obtain ⟨-, htail⟩ := List.cons.inj hwords
      cases front with
      | nil =>
          obtain ⟨rfl, -⟩ := List.cons.inj htail
          exact absurd hset (by decide)
      | cons head front => simp at htail

end Frames

end Playground
