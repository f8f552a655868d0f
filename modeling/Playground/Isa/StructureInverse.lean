/-
ST1-ST4 and then LD1-LD4 of the same registers at the same address: the store writes one run
of bytes, the lanes in address order, and the load puts every lane back where it was.
-/
import Playground.Isa.TornLoads
import Playground.Machine.Bytewise

namespace Playground

open Fields (bits)

section Lanes

def RegisterFile.lane (r : RegisterFile) (reg esize lane : Nat) : Word :=
  match RegisterFile.lanePosition reg esize lane with
  | none => 0
  | some (bits, shift) =>
      ((r.fpr (Fin.ofNat 32 reg) >>> shift) &&& RegisterFile.laneMask bits).setWidth 64

/-- A lane of a register there is. -/
structure IsLane (esize reg lane : Nat) : Prop where
  size_mem : esize ∈ [1, 2, 4, 8]
  reg_lt : reg < 32
  lane_lt : lane < 128 / (esize * 8)

variable {esize reg lane reg' lane' : Nat} {r r' : RegisterFile}

theorem IsLane.position (h : IsLane esize reg lane) :
    RegisterFile.lanePosition reg esize lane = some (esize * 8, lane * (esize * 8)) := by
  have hesize := h.size_mem
  have hreg := h.reg_lt
  have hlane := h.lane_lt
  simp only [List.mem_cons, List.not_mem_nil, or_false] at hesize
  unfold RegisterFile.lanePosition
  rw [if_neg (by omega), if_neg (by omega)]

theorem IsLane.bit_lt (h : IsLane esize reg lane) {j : Nat} (hj : j < esize * 8) :
    lane * (esize * 8) + j < 128 := by
  have hesize := h.size_mem
  have hlane := h.lane_lt
  simp only [List.mem_cons, List.not_mem_nil, or_false] at hesize
  rcases hesize with rfl | rfl | rfl | rfl <;> omega

theorem getLsbD_laneMask {esize : Nat} (h : esize ∈ [1, 2, 4, 8]) (j : Nat) :
    (RegisterFile.laneMask (esize * 8)).getLsbD j = decide (j < esize * 8) := by
  have hall : ∀ esize ∈ [1, 2, 4, 8], RegisterFile.laneMask (esize * 8) =
      BitVec.ofNat 128 (2 ^ (esize * 8) - 1) := by decide
  have hle : esize ≤ 8 := by
    simp only [List.mem_cons, List.not_mem_nil, or_false] at h
    omega
  rw [hall esize h, BitVec.getLsbD_ofNat, Nat.testBit_two_pow_sub_one]
  by_cases hj : j < esize * 8
  · simp [hj, show j < 128 by omega]
  · simp [hj]

/-- The bits of a lane are bits of its register. -/
theorem getLsbD_lane (h : IsLane esize reg lane) {j : Nat} (hj : j < 64) :
    (r.lane reg esize lane).getLsbD j = (decide (j < esize * 8) &&
      r.fprBit ⟨reg, h.reg_lt⟩ (lane * (esize * 8) + j)) := by
  have hreg : Fin.ofNat 32 reg = ⟨reg, h.reg_lt⟩ := Fin.ext (Nat.mod_eq_of_lt h.reg_lt)
  unfold RegisterFile.lane RegisterFile.fprBit
  rw [h.position]
  simp only
  rw [BitVec.getLsbD_setWidth, BitVec.getLsbD_and, BitVec.getLsbD_ushiftRight,
    getLsbD_laneMask h.size_mem, hreg, decide_eq_true hj, Bool.true_and, Bool.and_comm]

theorem lane_lt (h : IsLane esize reg lane) : (r.lane reg esize lane).toNat < 256 ^ esize := by
  have hpow : 256 ^ esize = 2 ^ (esize * 8) := by
    rw [Nat.mul_comm, Nat.pow_mul]
  rw [hpow]
  apply Nat.lt_pow_two_of_testBit
  intro j hj
  by_cases h64 : j < 64
  · have hbit := getLsbD_lane (r := r) h h64
    rw [decide_eq_false (by omega), Bool.false_and] at hbit
    exact hbit
  · exact Nat.testBit_lt_two_pow (Nat.lt_of_lt_of_le (BitVec.isLt _)
      (Nat.pow_le_pow_right (by decide) (by omega)))

/-- Lanes are read from the vector registers. -/
theorem lane_congr (h : r.fpr = r'.fpr) : r.lane reg esize lane = r'.lane reg esize lane := by
  unfold RegisterFile.lane
  rw [h]

/-- Lanes of one size do not overlap. -/
theorem lane_offset_iff {w j : Nat} (hj : j < w) :
    ¬ lane' * w + j < lane * w ∧ lane' * w + j - lane * w < w ↔ lane = lane' := by
  rcases Nat.lt_trichotomy lane lane' with h | h | h
  · have hnext := Nat.mul_le_mul_right w (show lane + 1 ≤ lane' from h)
    rw [Nat.succ_mul] at hnext
    omega
  · rw [h]
    omega
  · have hnext := Nat.mul_le_mul_right w (show lane' + 1 ≤ lane from h)
    rw [Nat.succ_mul] at hnext
    omega

theorem lane_writeFprLane (h : IsLane esize reg lane) (h' : IsLane esize reg' lane')
    (value : Word) (hvalue : value.toNat < 256 ^ esize) :
    (RegCall.run r (.writeFprLane reg esize lane value)).lane reg' esize lane' =
      if reg = reg' ∧ lane = lane' then value else r.lane reg' esize lane' := by
  apply BitVec.eq_of_getLsbD_eq
  intro j hj
  have hpow : 256 ^ esize = 2 ^ (esize * 8) := by
    rw [Nat.mul_comm, Nat.pow_mul]
  rw [getLsbD_lane h' hj]
  by_cases hin : j < esize * 8
  · have hbit := h'.bit_lt hin
    have hplace := @lane_offset_iff lane lane' _ _ hin
    rw [RegCall.fprBit_writeFprLane, h.position]
    simp only [decide_eq_true hin, Bool.true_and, BitVec.getLsbD_shiftLeft, decide_eq_true hbit,
      getLsbD_laneMask h.size_mem, BitVec.getLsbD_and, BitVec.getLsbD_setWidth]
    by_cases hreg : reg = reg'
    · by_cases hlane : lane = lane'
      · have hback : lane' * (esize * 8) + j - lane * (esize * 8) = j := by
          rw [hlane]
          omega
        obtain ⟨hlow, hhigh⟩ := hplace.mpr hlane
        rw [if_pos hreg, if_pos ⟨hreg, hlane⟩, decide_eq_false hlow, decide_eq_true hhigh, hback,
          decide_eq_true (show j < 128 by omega)]
        simp
      · rw [if_pos hreg, if_neg fun hboth => hlane hboth.2, getLsbD_lane h' hj,
          decide_eq_true hin]
        by_cases hlow : lane' * (esize * 8) + j < lane * (esize * 8)
        · simp [hlow]
        · have hhigh : ¬ lane' * (esize * 8) + j - lane * (esize * 8) < esize * 8 :=
            fun hhigh => hlane (hplace.mp ⟨hlow, hhigh⟩)
          simp [hhigh]
    · rw [if_neg hreg, if_neg fun hboth => hreg hboth.1, getLsbD_lane h' hj, decide_eq_true hin,
        Bool.true_and]
  · have habove : value.getLsbD j = false :=
      Nat.testBit_lt_two_pow (Nat.lt_of_lt_of_le (hpow ▸ hvalue)
        (Nat.pow_le_pow_right (by decide) (by omega)))
    rw [decide_eq_false hin, Bool.false_and]
    split
    · exact habove.symm
    · rw [getLsbD_lane h' hj, decide_eq_false hin, Bool.false_and]

end Lanes

namespace Execute

section Elements

variable {esize : Nat}

theorem run_writeElement (h : esize ∈ [1, 2, 4, 8]) (addr value : Word) (m : Machine) :
    (writeElement addr esize value).run m =
      ({ m with mem := (m.mem.writeLe addr (Memory.leBytes esize value.toNat)).1 },
        (m.mem.writeLe addr (Memory.leBytes esize value.toNat)).2) := by
  have hcut : ∀ n w, 2 ^ w = 256 ^ n →
      Memory.leBytes n (value.setWidth w).toNat = Memory.leBytes n value.toNat := by
    intro n w hw
    rw [BitVec.toNat_setWidth, hw, Memory.leBytes_mod]
  simp only [List.mem_cons, List.not_mem_nil, or_false] at h
  rcases h with rfl | rfl | rfl | rfl
  · have hone : Memory.leBytes 1 value.toNat = [value.setWidth 8] := by
      simp [Memory.leBytes, BitVec.ofNat_toNat]
    rw [hone, Memory.writeLe_singleton]
    rfl
  · rw [← hcut 2 16 rfl]
    rfl
  · rw [← hcut 4 32 rfl]
    rfl
  · rfl

/-- The read of an element gives the number its bytes spell. -/
theorem elementResult_eq (h : esize ∈ [1, 2, 4, 8]) (mem : Memory) (addr : Word) :
    elementResult mem addr esize = (mem.readLe addr esize).map (BitVec.ofNat 64) := by
  have hwide : ∀ n w, 2 ^ w = 256 ^ n → ((mem.readLe addr n).map (BitVec.ofNat w)).map
      (·.setWidth 64) = (mem.readLe addr n).map (BitVec.ofNat 64) := by
    intro n w hw
    rcases hread : mem.readLe addr n with e | v
    · rfl
    · have hlt := Memory.readLe_lt hread
      simp only [Except.map]
      congr 1
      apply BitVec.eq_of_toNat_eq
      rw [BitVec.toNat_setWidth, BitVec.toNat_ofNat, BitVec.toNat_ofNat,
        Nat.mod_eq_of_lt (show v < 2 ^ w from hw ▸ hlt)]
  simp only [List.mem_cons, List.not_mem_nil, or_false] at h
  rcases h with rfl | rfl | rfl | rfl
  · have hbyte : elementResult mem addr 1 = (mem.readU8 addr).map (·.setWidth 64) := rfl
    rw [← hwide 1 8 rfl, Memory.readLe_one, hbyte]
    rcases mem.readU8 addr with e | byte
    · rfl
    · simp [Except.map]
  · exact hwide 2 16 rfl
  · exact hwide 4 32 rfl
  · rfl

end Elements

section Loops

variable {s : SimdStructure}

/-- Elements at consecutive addresses, the first of them number `n`. -/
def spread (s : SimdStructure) (base : Word) (n : Nat) (lanes : List (Nat × Nat)) :
    List (Word × Nat × Nat) :=
  (lanes.zipIdx n).map fun (element, k) => (base + BitVec.ofNat 64 (k * s.esize), element)

theorem elements_eq (s : SimdStructure) (base : Word) :
    elements s base = spread s base 0 (elementLanes s) := rfl

theorem spread_cons (s : SimdStructure) (base : Word) (n : Nat) (lane : Nat × Nat)
    (lanes : List (Nat × Nat)) :
    spread s base n (lane :: lanes) =
      (base + BitVec.ofNat 64 (n * s.esize), lane) :: spread s base (n + 1) lanes := by
  unfold spread
  rw [List.zipIdx_cons, List.map_cons]

def laneBytes (s : SimdStructure) (r : RegisterFile) (lanes : List (Nat × Nat)) : List Byte :=
  lanes.flatMap fun (reg, lane) => Memory.leBytes s.esize (r.lane reg s.esize lane).toNat

theorem laneBytes_cons (s : SimdStructure) (r : RegisterFile) (reg lane : Nat)
    (lanes : List (Nat × Nat)) :
    laneBytes s r ((reg, lane) :: lanes) =
      Memory.leBytes s.esize (r.lane reg s.esize lane).toNat ++ laneBytes s r lanes := rfl

theorem length_laneBytes (s : SimdStructure) (r : RegisterFile) (lanes : List (Nat × Nat)) :
    (laneBytes s r lanes).length = lanes.length * s.esize := by
  induction lanes with
  | nil => simp [laneBytes]
  | cons element lanes ih =>
      rw [laneBytes_cons, List.length_append, length_leBytes, ih, List.length_cons, Nat.succ_mul,
        Nat.add_comm]

/-- The store of an element writes the lane's bytes. -/
theorem run_moveElement_store (wf : s.WellFormed) (hstore : s.load = false) (addr : Word)
    (reg lane : Nat) (m : Machine) :
    (moveElement s (addr, reg, lane)).run m =
      ({ m with mem := (m.mem.writeLe addr
          (Memory.leBytes s.esize (m.regs.lane reg s.esize lane).toNat)).1 },
        (m.mem.writeLe addr (Memory.leBytes s.esize (m.regs.lane reg s.esize lane).toNat)).2) := by
  have hread : (Exec.readFprLane reg s.esize lane).run m =
      (m, .ok (m.regs.lane reg s.esize lane)) := rfl
  unfold moveElement
  simp only [hstore, Bool.false_eq_true, if_false]
  split
  · rename_i hshape
    rw [wf.replicate hshape] at hstore
    cases hstore
  · rw [Exec.run_bind_ok hread, run_writeElement wf.esize]

/-- A structure store writes its lanes one after another, in one run, and no register. -/
theorem run_stores (wf : s.WellFormed) (hstore : s.load = false) {base : Word} {n : Nat}
    {lanes : List (Nat × Nat)} {m m' : Machine} (hlen : lanes.length * s.esize ≤ 2 ^ 64)
    (h : (Exec.each (spread s base n lanes) (moveElement s)).run m = (m', .ok ())) :
    m'.regs = m.regs ∧
      Memory.Written m.mem (base + BitVec.ofNat 64 (n * s.esize)) (laneBytes s m.regs lanes)
        m'.mem ∧
      (m.mem.OneRun base (n * s.esize) → m'.mem.OneRun base ((n + lanes.length) * s.esize)) := by
  obtain ⟨hpos, hle⟩ := wf.esize_bounds
  induction lanes generalizing n m with
  | nil =>
      cases h
      exact ⟨rfl, ⟨fun a => rfl, fun i hi => absurd hi (Nat.not_lt_zero i), fun _ => id, rfl⟩, id⟩
  | cons element lanes ih =>
      obtain ⟨reg, lane⟩ := element
      rw [List.length_cons, Nat.succ_mul] at hlen
      have hsize : ∀ v, (Memory.leBytes s.esize v).length = s.esize := length_leBytes _
      rw [spread_cons, Exec.each, Exec.run_bind, run_moveElement_store wf hstore] at h
      rcases hwrite : m.mem.writeLe (base + BitVec.ofNat 64 (n * s.esize))
        (Memory.leBytes s.esize (m.regs.lane reg s.esize lane).toNat) with ⟨mem, e | ⟨⟩⟩
      · simp only [hwrite] at h
        cases h
      · simp only [hwrite] at h
        obtain ⟨hregs, hwritten, hruns⟩ := ih (by omega) h
        have hfirst := Memory.written_of_writeLe (by rw [hsize]; exact hpos)
          (by rw [hsize]; omega) hwrite
        refine ⟨hregs, ?_, ?_⟩
        · rw [laneBytes_cons]
          apply hfirst.append
          · rw [hsize, length_laneBytes]
            omega
          · rw [hsize, BitVec.add_assoc, ← BitVec.ofNat_add, ← Nat.succ_mul]
            exact hwritten
        · intro hone
          have hnext := hone.writeLe (by rw [hsize]; exact hpos) (by rw [hsize]; omega) hwrite
          rw [hsize, ← Nat.succ_mul] at hnext
          have hrest := hruns hnext
          rwa [List.length_cons, ← Nat.add_assoc, Nat.add_right_comm]

def laneWrite (s : SimdStructure) (r : RegisterFile) (element : Nat × Nat) : RegCall :=
  .writeFprLane element.1 s.esize element.2 (r.lane element.1 s.esize element.2)

/-- Loading the bytes of lanes writes those lanes. -/
theorem loadAll_spread (hesize : s.esize ∈ [1, 2, 4, 8]) (hshape : s.shape ≠ .replicate)
    {base : Word} {n : Nat} {r : RegisterFile} {lanes : List (Nat × Nat)} {mem : Memory}
    (hlanes : ∀ element ∈ lanes, IsLane s.esize element.1 element.2)
    (h : mem.Holds (base + BitVec.ofNat 64 (n * s.esize), laneBytes s r lanes)) :
    loadAll mem ((spread s base n lanes).map (elementStep s)) =
      (lanes.map (laneWrite s r), .ok ()) := by
  have hbounds : 0 < s.esize ∧ s.esize ≤ 8 := by
    simp only [List.mem_cons, List.not_mem_nil, or_false] at hesize
    omega
  induction lanes generalizing n with
  | nil => rfl
  | cons element lanes ih =>
      obtain ⟨reg, lane⟩ := element
      have hlane := hlanes (reg, lane) List.mem_cons_self
      rw [laneBytes_cons] at h
      have hfirst := h.take s.esize
      have hrest := h.drop s.esize
      rw [List.take_left' (length_leBytes _ _)] at hfirst
      rw [List.drop_left' (length_leBytes _ _), BitVec.add_assoc, ← BitVec.ofNat_add,
        ← Nat.succ_mul] at hrest
      have hread := Memory.readLe_leBytes hbounds.1 (le_refl _) (by omega) hfirst
      rw [Nat.mod_eq_of_lt (lane_lt hlane)] at hread
      have hstep : elementStep s (base + BitVec.ofNat 64 (n * s.esize), reg, lane) mem =
          .ok (laneWrite s r (reg, lane)) := by
        unfold elementStep laneWrite elementCall
        rw [elementResult_eq hesize, hread]
        simp only [Except.map, BitVec.ofNat_toNat, BitVec.setWidth_eq]
      rw [spread_cons, List.map_cons, loadAll, hstep]
      simp only [ih (fun e he => hlanes e (List.mem_cons_of_mem _ he)) hrest]
      rfl

/-- Writing lanes back leaves each of them, and the ones that already held, as they were. -/
theorem lane_foldl {r r₀ : RegisterFile} {lanes : List (Nat × Nat)}
    (hlanes : ∀ element ∈ lanes, IsLane s.esize element.1 element.2) {reg lane : Nat}
    (hlane : IsLane s.esize reg lane)
    (h : (reg, lane) ∈ lanes ∨ r.lane reg s.esize lane = r₀.lane reg s.esize lane) :
    ((lanes.map (laneWrite s r₀)).foldl RegCall.run r).lane reg s.esize lane =
      r₀.lane reg s.esize lane := by
  induction lanes generalizing r with
  | nil => exact h.resolve_left List.not_mem_nil
  | cons element lanes ih =>
      have hhead := hlanes element List.mem_cons_self
      apply ih (fun e he => hlanes e (List.mem_cons_of_mem _ he))
      have hwrite := lane_writeFprLane (r := r) hhead hlane (r₀.lane element.1 s.esize element.2)
        (lane_lt hhead)
      by_cases heq : element.1 = reg ∧ element.2 = lane
      · right
        rw [laneWrite, hwrite, if_pos heq, heq.1, heq.2]
      · rcases h with hmem | hheld
        · rcases List.mem_cons.mp hmem with rfl | hmem
          · exact absurd ⟨rfl, rfl⟩ heq
          · exact .inl hmem
        · right
          rw [laneWrite, hwrite, if_neg heq]
          exact hheld

end Loops

section Layout

variable {s : SimdStructure}

theorem esize_cases (wf : s.WellFormed) :
    s.esize = 1 ∨ s.esize = 2 ∨ s.esize = 4 ∨ s.esize = 8 := by
  simpa only [List.mem_cons, List.not_mem_nil, or_false] using wf.esize

/-- The lanes of a listed register that a load or store moves. -/
def MovesLane (s : SimdStructure) (lane : Nat) : Prop :=
  match s.shape with
  | .lane index => lane = index
  | _ => lane < lanes s

theorem isLane_of_moves (wf : s.WellFormed) {lane : Nat} (h : MovesLane s lane) (step : Nat) :
    IsLane s.esize (regAt s step) lane := by
  refine ⟨wf.esize, Nat.mod_lt _ (by decide), ?_⟩
  have hfull : lane < lanes s → lane * s.esize < 16 := by
    intro hlt
    have hmul := lanes_mul_esize wf
    have hle := Nat.mul_le_mul_right s.esize (show lane + 1 ≤ lanes s from hlt)
    rw [Nat.succ_mul, hmul] at hle
    have hpos := wf.esize_bounds.1
    split at hle <;> omega
  have hbytes : lane * s.esize < 16 := by
    unfold MovesLane at h
    cases hshape : s.shape with
    | multiple =>
        rw [hshape] at h
        exact hfull h
    | lane index =>
        rw [hshape] at h
        rw [h]
        exact wf.lane index hshape
    | replicate =>
        rw [hshape] at h
        exact hfull h
  rcases esize_cases wf with h | h | h | h <;> rw [h] at hbytes ⊢ <;> omega

theorem mem_elementLanes_iff (wf : s.WellFormed) (hshape : s.shape ≠ .replicate)
    (element : Nat × Nat) :
    element ∈ elementLanes s ↔
      ∃ step < s.count, MovesLane s element.2 ∧ regAt s step = element.1 := by
  obtain ⟨reg, lane⟩ := element
  unfold elementLanes MovesLane
  cases hs : s.shape with
  | replicate => exact absurd hs hshape
  | lane index =>
      simp only [List.mem_map, List.mem_range, Prod.mk.injEq]
      constructor
      · rintro ⟨step, hstep, hreg, rfl⟩
        exact ⟨step, hstep, rfl, hreg⟩
      · rintro ⟨step, hstep, rfl, hreg⟩
        exact ⟨step, hstep, hreg, rfl⟩
  | multiple =>
      obtain ⟨hpos, turns, hcount⟩ := wf.structures
      have hturns : s.count / s.structures = turns := by
        rw [hcount, Nat.mul_div_cancel_left _ hpos]
      unfold multipleLanes
      simp only [List.mem_flatMap, List.mem_map, List.mem_range, Prod.mk.injEq, hturns]
      constructor
      · rintro ⟨turn, hturn, lane', hlane, slot, hslot, hreg, rfl⟩
        refine ⟨turn * s.structures + slot, ?_, hlane, hreg⟩
        have hnext := Nat.mul_le_mul_right s.structures (show turn + 1 ≤ turns from hturn)
        rw [Nat.succ_mul, Nat.mul_comm turns] at hnext
        omega
      · rintro ⟨step, hstep, hlane, hreg⟩
        refine ⟨step / s.structures, ?_, lane, hlane, step % s.structures, Nat.mod_lt _ hpos, ?_,
          rfl⟩
        · rw [Nat.div_lt_iff_lt_mul hpos, Nat.mul_comm, ← hcount]
          exact hstep
        · rw [Nat.mul_comm, Nat.div_add_mod]
          exact hreg

end Layout

section Inverse

variable {s : SimdStructure} {m m' m₁ : Machine}

/-- The store writes one run of as many bytes as the instruction moves, and no others. -/
def StoresSpan (s : SimdStructure) (m m' : Machine) : Prop :=
  ∃ bytes, bytes.length = simdStructBytes s.shape s.count s.esize s.q ∧
    Memory.Written m.mem (baseOf m.regs s.rn) bytes m'.mem ∧
    (m.mem.stepWrites = [] → m'.mem.stepWrites = [(baseOf m.regs s.rn, bytes.length)])

/-- The load runs to its end, and every lane that moves holds what it held before the store. -/
def Restores (s : SimdStructure) (m m₁ : Machine) : Prop :=
  ∃ m₂, (execSimdLdstStructure { s with load := true }).run m₁ = (m₂, .ok .advance) ∧
    ∀ step < s.count, ∀ lane, MovesLane s lane →
      m₂.regs.lane (regAt s step) s.esize lane = m.regs.lane (regAt s step) s.esize lane

def lastByte (s : SimdStructure) (base : Word) : Word :=
  base + BitVec.ofNat 64 (simdStructBytes s.shape s.count s.esize s.q - 1)

/-- The writeback changes a base register at most. -/
theorem run_postIndex (s : SimdStructure) (base : Word) (total : Nat) (m : Machine) :
    ∃ r, (do postIndex s base total; return ExecResult.advance : Exec ExecResult).run m =
        ({ m with regs := r }, .ok .advance) ∧
      r.fpr = m.regs.fpr ∧ (s.post = none → r = m.regs) := by
  have hwrite : ∀ (m : Machine) (value : Word), ∃ r,
      (do Exec.writeGprOrSp s.rn true value; return ExecResult.advance : Exec ExecResult).run m =
        ({ m with regs := r }, .ok .advance) ∧ r.fpr = m.regs.fpr := by
    intro m value
    unfold Exec.writeGprOrSp
    split
    · exact ⟨_, rfl, rfl⟩
    · refine ⟨_, rfl, ?_⟩
      have hvalues := congrArg RegisterValues.fpr (m.regs.values_writeGpr s.rn true value)
      split at hvalues <;> exact hvalues
  unfold postIndex
  cases hpost : s.post with
  | none => exact ⟨m.regs, rfl, rfl, fun _ => rfl⟩
  | some rm =>
      simp only
      by_cases hrm : rm = 31
      · rw [if_pos hrm]
        obtain ⟨r, hrun, hfpr⟩ := hwrite m (base + BitVec.ofNat 64 total)
        exact ⟨r, hrun, hfpr, nofun⟩
      · rw [if_neg hrm, Exec.bind_assoc]
        obtain ⟨r, hbind, hvalues⟩ := (Exec.reads_readGpr rm true m).bind
          (f := fun step => do
            Exec.writeGprOrSp s.rn true (base + step)
            return ExecResult.advance)
        obtain ⟨r', hrun, hfpr⟩ := hwrite { m with regs := r } (base + m.regs.gprValue rm true)
        refine ⟨r', hbind.trans hrun, ?_, nofun⟩
        rw [hfpr]
        exact congrArg RegisterValues.fpr hvalues

/-- What the checks guard runs when they pass, and else the instruction faults. -/
theorem run_structure (s : SimdStructure) (m : Machine) :
    ∃ r, r.values = m.regs.values ∧
      ((Passes m.regs s.rn id (lastByte s) ∧ (execSimdLdstStructure s).run m =
          ((do zeroFirst s; Exec.each (elements s (baseOf m.regs s.rn)) (moveElement s)) >>=
            fun _ => do
              postIndex s (baseOf m.regs s.rn) (simdStructBytes s.shape s.count s.esize s.q)
              return ExecResult.advance).run { m with regs := r }) ∨
        (¬ Passes m.regs s.rn id (lastByte s) ∧ ∃ e, (execSimdLdstStructure s).run m =
          ({ m with regs := r }, .error e))) := by
  rw [execSimdLdstStructure_eq]
  exact run_guarded s.rn id (lastByte s) (if s.load then .read else .write) _ m

/-- What a structure store that ends well has done. -/
theorem structure_store (wf : s.WellFormed) (hstore : s.load = false)
    (h : (execSimdLdstStructure s).run m = (m', .ok .advance)) :
    Passes m.regs s.rn id (lastByte s) ∧
      Memory.Written m.mem (baseOf m.regs s.rn) (laneBytes s m.regs (elementLanes s)) m'.mem ∧
      (m.mem.OneRun (baseOf m.regs s.rn) 0 →
        m'.mem.OneRun (baseOf m.regs s.rn) (simdStructBytes s.shape s.count s.esize s.q)) ∧
      (s.post = none → m'.regs.values = m.regs.values) := by
  obtain ⟨r, hvalues, ⟨hpasses, hrun⟩ | ⟨-, e, hrun⟩⟩ := run_structure s m
  · have hzero : (zeroFirst s).run { m with regs := r } = ({ m with regs := r }, .ok ()) := by
      unfold zeroFirst
      rw [if_neg (by simp [hstore])]
      rfl
    have hlength := length_elementLanes wf
    have hbound : (elementLanes s).length * s.esize ≤ 2 ^ 64 := by
      have hle := (simdStructBytes_bounds wf).2
      omega
    rw [hrun, Exec.bind_assoc, Exec.run_bind_ok hzero, Exec.run_bind, elements_eq] at h
    rcases hstores : (Exec.each (spread s (baseOf m.regs s.rn) 0 (elementLanes s))
      (moveElement s)).run { m with regs := r } with ⟨m'', e | ⟨⟩⟩
    · simp only [hstores] at h
      cases h
    · simp only [hstores] at h
      obtain ⟨hregs, hwritten, hruns⟩ := run_stores wf hstore hbound hstores
      obtain ⟨r', hpost, -, hsame⟩ := run_postIndex s (baseOf m.regs s.rn)
        (simdStructBytes s.shape s.count s.esize s.q) m''
      rw [hpost] at h
      cases h
      have hfpr : r.fpr = m.regs.fpr := congrArg RegisterValues.fpr hvalues
      have hbytes : laneBytes s r (elementLanes s) = laneBytes s m.regs (elementLanes s) := by
        unfold laneBytes
        simp only [lane_congr hfpr]
      rw [Nat.zero_mul, BitVec.add_zero, hbytes] at hwritten
      rw [Nat.zero_mul, Nat.zero_add, hlength] at hruns
      refine ⟨hpasses, hwritten, hruns, ?_⟩
      intro hnone
      rw [hsame hnone, hregs]
      exact hvalues
  · rw [h] at hrun
    cases hrun

/-- A base of SP is the stack pointer. -/
theorem passes_congr {rn : Nat} {first last : Word → Word} {r r' : RegisterFile}
    (hbase : baseOf r' rn = baseOf r rn) (h : Passes r rn first last) :
    Passes r' rn first last := by
  obtain ⟨halign, hfirst, hlast⟩ := h
  refine ⟨?_, by rwa [hbase], by rwa [hbase]⟩
  intro hrn
  have hsp := halign hrn
  unfold baseOf at hbase
  rw [if_pos hrn, if_pos hrn] at hbase
  rwa [hbase]

/-- A structure load at the address of a store puts its lanes back. -/
theorem structure_load (wf : s.WellFormed) (hshape : s.shape ≠ .replicate)
    (hpasses : Passes m.regs s.rn id (lastByte s))
    (hholds : m₁.mem.Holds (baseOf m.regs s.rn, laneBytes s m.regs (elementLanes s)))
    (hbase : baseOf m₁.regs s.rn = baseOf m.regs s.rn) : Restores s m m₁ := by
  let t : SimdStructure := { s with load := true }
  have hpasses' : Passes m₁.regs t.rn id (lastByte t) := passes_congr hbase hpasses
  have hlanes : ∀ element ∈ elementLanes s, IsLane s.esize element.1 element.2 := by
    intro element helement
    obtain ⟨step, -, hmoves, hreg⟩ := (mem_elementLanes_iff wf hshape element).mp helement
    rw [← hreg]
    exact isLane_of_moves wf hmoves step
  obtain ⟨r, -, ⟨-, hrun⟩ | ⟨hnot, -⟩⟩ := run_structure t m₁
  · have hloads :
        (do zeroFirst t; Exec.each (elements t (baseOf m₁.regs t.rn)) (moveElement t)).Loads
          (zeroSteps t ++ (elements t (baseOf m₁.regs t.rn)).map (elementStep t)) :=
      (loads_zeroFirst t).bind (Exec.loads_each (loads_moveElement rfl) _)
    have hzero : ∃ ops, loadAll m₁.mem (zeroSteps t) = (ops, .ok ()) := by
      refine ⟨_, Prod.ext rfl ?_⟩
      rw [loadAll_ok_iff]
      intro step hstep
      unfold zeroSteps at hstep
      split at hstep
      · obtain ⟨k, -, rfl⟩ := List.mem_map.mp hstep
        rfl
      · cases hstep
    obtain ⟨ops, hops⟩ := hzero
    have hspread : loadAll m₁.mem ((elements t (baseOf m₁.regs t.rn)).map (elementStep t)) =
        ((elementLanes s).map (laneWrite s m.regs), .ok ()) := by
      apply loadAll_spread (s := t) wf.esize hshape hlanes
      rw [hbase, Nat.zero_mul, BitVec.add_zero]
      exact hholds
    rw [Exec.run_bind, hloads] at hrun
    simp only [loadAll_append, hops, hspread] at hrun
    obtain ⟨r', hpost, hfpr, -⟩ := run_postIndex t (baseOf m₁.regs t.rn)
      (simdStructBytes t.shape t.count t.esize t.q) { m₁ with
        regs := (ops ++ (elementLanes s).map (laneWrite s m.regs)).foldl RegCall.run r }
    rw [hpost] at hrun
    refine ⟨_, hrun, ?_⟩
    intro step hstep lane hmoves
    rw [lane_congr hfpr, List.foldl_append]
    apply lane_foldl hlanes (isLane_of_moves wf hmoves step)
    exact .inl ((mem_elementLanes_iff wf hshape _).mpr ⟨step, hstep, hmoves, rfl⟩)
  · exact absurd hpasses' hnot

/-- The index that Q, S and size hold gives them back. -/
theorem simdStructIndexBits_of_index {esize index size : Nat} {q sBit : Bool} (hsize : size < 4)
    (h : simdStructIndex esize q sBit size = some index) :
    simdStructIndexBits esize index = (q, sBit, size) := by
  unfold simdStructIndex at h
  split at h
  · cases h
    interval_cases size <;> cases q <;> cases sBit <;> rfl
  · split at h
    · cases h
      interval_cases size <;> cases q <;> cases sBit <;> first | rfl | contradiction
    · cases h
  · split at h
    · rename_i hzero
      cases h
      rw [hzero]
      cases q <;> cases sBit <;> rfl
    · cases h
  · split at h
    · rename_i hone
      cases h
      rw [hone.1, hone.2]
      cases q <;> rfl
    · cases h
  · cases h

theorem index_round_trip {w : BitVec 32} {index : Nat}
    (h : Decode.decodeSimdLdstStructure w = some s) (hshape : s.shape = .lane index) :
    simdStructIndexBits s.esize index = (Decode.flag w 30, Decode.flag w 12, bits w 11 10) := by
  have hsize : bits w 11 10 < 4 := Nat.mod_lt _ (by decide)
  unfold Decode.decodeSimdLdstStructure at h
  simp only at h
  split at h
  · cases h
  · split at h
    · split at h
      · cases h
      · split at h
        · cases h
        · split at h
          · cases h
          · cases h
            cases hshape
    · obtain ⟨⟨esize, shape⟩, hsingle, rfl⟩ := Option.map_eq_some_iff.mp h
      simp only at hshape ⊢
      rw [hshape] at hsingle
      unfold Decode.singleShape at hsingle
      split at hsingle
      · split at hsingle <;> cases hsingle
      · obtain ⟨index', hindex, hpair⟩ := Option.map_eq_some_iff.mp hsingle
        cases hpair
        exact simdStructIndexBits_of_index hsize hindex

/-- Structure stores and loads are inverse: a store that ends well writes one run of the bytes
it moves, a load of the same registers at the same address puts every lane back, and the index
of a single lane packs into the bits it came from. -/
theorem structures_inverse :
    (∀ s : SimdStructure, s.WellFormed → s.load = false → ∀ m m' : Machine,
      (execSimdLdstStructure s).run m = (m', .ok .advance) →
        StoresSpan s m m' ∧
        (∀ m₁ : Machine, m₁.mem = m'.mem → baseOf m₁.regs s.rn = baseOf m.regs s.rn →
          Restores s m m₁) ∧
        (s.post = none → Restores s m m')) ∧
    ∀ (w : BitVec 32) (s : SimdStructure) (index : Nat),
      Decode.decodeSimdLdstStructure w = some s → s.shape = .lane index →
        simdStructIndexBits s.esize index = (Decode.flag w 30, Decode.flag w 12, bits w 11 10) := by
  refine ⟨?_, fun w s index h hshape => index_round_trip h hshape⟩
  intro s wf hstore m m' hrun
  obtain ⟨hpasses, hwritten, hruns, hvalues⟩ := structure_store wf hstore hrun
  have hlength := length_laneBytes s m.regs (elementLanes s)
  rw [length_elementLanes wf] at hlength
  have hle := (simdStructBytes_bounds wf).2
  have hpos := (simdStructBytes_bounds wf).1
  have hshape : s.shape ≠ .replicate := by
    intro hreplicate
    rw [wf.replicate hreplicate] at hstore
    cases hstore
  have hholds := hwritten.holds (by omega)
  have hrestores : ∀ m₁ : Machine, m₁.mem = m'.mem →
      baseOf m₁.regs s.rn = baseOf m.regs s.rn → Restores s m m₁ := by
    intro m₁ hmem hbase
    exact structure_load wf hshape hpasses (by rw [hmem]; exact hholds) hbase
  refine ⟨⟨_, hlength, hwritten, ?_⟩, hrestores, ?_⟩
  · intro hnone
    have hone := hruns hnone
    rw [hlength]
    unfold Memory.OneRun at hone
    rwa [if_neg hpos.ne'] at hone
  · intro hpost
    apply hrestores m' rfl
    have hregs := hvalues hpost
    have hsp : m'.regs.sp = m.regs.sp := congrArg RegisterValues.sp hregs
    unfold baseOf
    rw [hsp, RegisterFile.gprValue_congr hregs]

/-- A register file whose x0 points past the first page. -/
def pointsAt (addr : Word) : RegisterFile :=
  { RegisterFile.new with gpr := fun _ => addr }

/-- `st2 {v31.4s, v0.4s}, [x0]` and the load after it; `ld1 {v3.d}[1]` names lane 1. -/
theorem structures_inverse_pair :
    Restores ⟨false, 2, 2, 4, true, .multiple, 31, 0, none⟩
        ⟨pointsAt 0x2000, Memory.new, HeapState.new⟩
        ((execSimdLdstStructure ⟨false, 2, 2, 4, true, .multiple, 31, 0, none⟩).run
          ⟨pointsAt 0x2000, Memory.new, HeapState.new⟩).1 ∧
      simdStructIndexBits 8 1 = (true, false, 1) := by
  constructor
  · have wf : (⟨false, 2, 2, 4, true, .multiple, 31, 0, none⟩ : SimdStructure).WellFormed :=
      ⟨by decide, by decide, by decide, nofun, nofun⟩
    exact (structures_inverse.1 _ wf rfl _ _ (Prod.ext rfl (by decide))).2.2 rfl
  · exact structures_inverse.2 0x4d4084e3 ⟨true, 1, 1, 8, true, .lane 1, 3, 7, none⟩ 1
      (by decide) rfl

end Inverse

end Execute

end Playground
