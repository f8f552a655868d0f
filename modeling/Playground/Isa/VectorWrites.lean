/-
Loads of vector registers as steps of one read and one write.  A write sets some bits and
keeps the others apart, so that what a run of steps leaves in a bit it has set does not
depend on what was there.
-/
import Playground.Isa.Precise

namespace Playground

section Bits

def RegisterFile.fprBit (r : RegisterFile) (i : Fin 32) (b : Nat) : Bool := (r.fpr i).getLsbD b

namespace RegCall

/-- The call does not tell apart files that agree on the bit. -/
def Keeps (op : RegCall) (i : Fin 32) (b : Nat) : Prop :=
  ∀ r r' : RegisterFile, r.fprBit i b = r'.fprBit i b →
    (op.run r).fprBit i b = (op.run r').fprBit i b

/-- The call sets the bit, whatever it was. -/
def Fixes (op : RegCall) (i : Fin 32) (b : Nat) : Prop :=
  ∀ r r' : RegisterFile, (op.run r).fprBit i b = (op.run r').fprBit i b

theorem keeps_foldl {i : Fin 32} {b : Nat} {ops : List RegCall} (h : ∀ op ∈ ops, op.Keeps i b)
    {r r' : RegisterFile} (heq : r.fprBit i b = r'.fprBit i b) :
    (ops.foldl RegCall.run r).fprBit i b = (ops.foldl RegCall.run r').fprBit i b := by
  induction ops generalizing r r' with
  | nil => exact heq
  | cons op ops ih =>
      apply ih (fun op' hop => h op' (List.mem_cons_of_mem op hop))
      exact h op List.mem_cons_self r r' heq

theorem fpr_storeFpr (r : RegisterFile) (index : Nat) (low : Bool) (value : BitVec 128) :
    (r.storeFpr index low value).fpr =
      if h : index < 32 then Function.update r.fpr ⟨index, h⟩ value else r.fpr := by
  have hlog : ∀ r : RegisterFile, (r.logFpr index).fpr = r.fpr := fun r =>
    congrArg RegisterValues.fpr (r.values_log _)
  unfold RegisterFile.storeFpr
  by_cases h : index < 32
  · rw [dif_pos h, dif_pos h]
    simp only [hlog]
    cases low <;> rfl
  · rw [dif_neg h, dif_neg h]

theorem fprBit_storeFpr (r : RegisterFile) (index : Nat) (low : Bool) (value : BitVec 128)
    (i : Fin 32) (b : Nat) :
    (r.storeFpr index low value).fprBit i b =
      if index = i then value.getLsbD b else r.fprBit i b := by
  unfold RegisterFile.fprBit
  rw [fpr_storeFpr]
  by_cases heq : index = i
  · have hlt : index < 32 := heq ▸ i.isLt
    have hidx : (⟨index, hlt⟩ : Fin 32) = i := Fin.ext heq
    rw [if_pos heq, dif_pos hlt, hidx, Function.update_self]
  · rw [if_neg heq]
    split
    · rename_i hlt
      rw [Function.update_of_ne]
      rintro rfl
      exact heq rfl
    · rfl

/-- A write of a whole register, with a value of its own. -/
theorem keeps_storeFpr {op : RegCall} {index : Nat} {value : BitVec 128}
    (hop : ∀ r, op.run r = r.storeFpr index true value) (i : Fin 32) (b : Nat) :
    op.Keeps i b := by
  intro r r' heq
  rw [hop, hop, fprBit_storeFpr, fprBit_storeFpr, heq]

theorem fixes_storeFpr {op : RegCall} {i : Fin 32} {value : BitVec 128}
    (hop : ∀ r, op.run r = r.storeFpr i true value) (b : Nat) : op.Fixes i b := by
  intro r r'
  rw [hop, hop, fprBit_storeFpr, fprBit_storeFpr, if_pos rfl, if_pos rfl]

theorem fprBit_writeFprLane (r : RegisterFile) (index esize lane : Nat) (value : Word)
    (i : Fin 32) (b : Nat) :
    (RegCall.run r (.writeFprLane index esize lane value)).fprBit i b =
      match RegisterFile.lanePosition index esize lane with
      | none => r.fprBit i b
      | some (bits, shift) =>
          if index = i then
            (r.fprBit i b && (decide (b < 128) &&
              !(RegisterFile.laneMask bits <<< shift).getLsbD b)) ||
              ((value.setWidth 128 &&& RegisterFile.laneMask bits) <<< shift).getLsbD b
          else r.fprBit i b := by
  show (r.writeFprLane index esize lane value).fprBit i b = _
  unfold RegisterFile.writeFprLane
  rcases RegisterFile.lanePosition index esize lane with _ | ⟨bits, shift⟩
  · rfl
  · simp only [fprBit_storeFpr]
    by_cases heq : index = i
    · have hidx : Fin.ofNat 32 index = i := Fin.ext (by simp [heq])
      rw [if_pos heq, if_pos heq, hidx, BitVec.getLsbD_or, BitVec.getLsbD_and, BitVec.getLsbD_not]
      rfl
    · rw [if_neg heq, if_neg heq]

theorem keeps_writeFprLane (index esize lane : Nat) (value : Word) (i : Fin 32) (b : Nat) :
    (RegCall.writeFprLane index esize lane value).Keeps i b := by
  intro r r' heq
  rw [fprBit_writeFprLane, fprBit_writeFprLane, heq]

theorem lane_lt_of_lt_div {lane width : Nat} (h : lane < 128 / width) : lane * width < 128 := by
  have hmul : (lane + 1) * width ≤ 128 / width * width := Nat.mul_le_mul_right _ h
  have hdiv : 128 / width * width ≤ 128 := Nat.div_mul_le_self _ _
  have hpos : 0 < width := by
    apply Nat.pos_of_ne_zero
    rintro rfl
    simp at h
  rw [Nat.succ_mul] at hmul
  omega

theorem fixes_writeFprLane {i : Fin 32} {esize lane : Nat} (value : Word) (hpos : 0 < esize)
    (hle : esize ≤ 8) (hlane : lane < 128 / (esize * 8)) :
    (RegCall.writeFprLane i esize lane value).Fixes i (lane * (esize * 8)) := by
  have hposition : RegisterFile.lanePosition i esize lane =
      some (esize * 8, lane * (esize * 8)) := by
    unfold RegisterFile.lanePosition
    rw [if_neg (by omega), if_neg (by omega)]
  have hshift : lane * (esize * 8) < 128 := lane_lt_of_lt_div hlane
  have hmask : (RegisterFile.laneMask (esize * 8) <<< (lane * (esize * 8))).getLsbD
      (lane * (esize * 8)) = true := by
    rw [BitVec.getLsbD_shiftLeft]
    have hzero : (RegisterFile.laneMask (esize * 8)).getLsbD 0 = true := by
      have hall : ∀ n, n < 9 → 0 < n → (RegisterFile.laneMask (n * 8)).getLsbD 0 = true := by decide
      exact hall esize (by omega) hpos
    simp [hshift, hzero]
  intro r r'
  rw [fprBit_writeFprLane, fprBit_writeFprLane, hposition]
  simp [hmask]

end RegCall

end Bits

section LoadSteps

/-- One read of memory for one write of a vector register, or the read's fault. -/
abbrev LoadStep := Memory → Except EmuError RegCall

/-- What load steps write one after another, and the fault that ends them if one does. -/
def loadAll (mem : Memory) : List LoadStep → List RegCall × Except EmuError Unit
  | [] => ([], .ok ())
  | step :: steps =>
      match step mem with
      | .error e => ([], .error e)
      | .ok op => (op :: (loadAll mem steps).1, (loadAll mem steps).2)

theorem loadAll_append (mem : Memory) (first second : List LoadStep) :
    loadAll mem (first ++ second) =
      match loadAll mem first with
      | (ops, .ok ()) => (ops ++ (loadAll mem second).1, (loadAll mem second).2)
      | (ops, .error e) => (ops, .error e) := by
  induction first with
  | nil => rfl
  | cons step first ih =>
      simp only [List.cons_append, loadAll]
      rw [ih]
      split
      · rfl
      · rename_i op _
        rcases loadAll mem first with ⟨ops, e | ⟨⟩⟩ <;> rfl

/-- The steps end in a fault exactly when one of them cannot read. -/
theorem loadAll_ok_iff (mem : Memory) (steps : List LoadStep) :
    (loadAll mem steps).2 = .ok () ↔ ∀ step ∈ steps, (step mem).isOk = true := by
  induction steps with
  | nil => simp [loadAll]
  | cons step steps ih =>
      simp only [loadAll, List.forall_mem_cons]
      rcases step mem with e | op
      · simp [Except.isOk, Except.toBool]
      · simp [Except.isOk, Except.toBool, ih]

theorem mem_loadAll {mem : Memory} {steps : List LoadStep} {op : RegCall}
    (h : op ∈ (loadAll mem steps).1) : ∃ step ∈ steps, step mem = .ok op := by
  induction steps with
  | nil => simp [loadAll] at h
  | cons step steps ih =>
      simp only [loadAll] at h
      rcases hstep : step mem with e | op'
      · simp [hstep] at h
      · simp only [hstep, List.mem_cons] at h
        rcases h with rfl | h
        · exact ⟨step, List.mem_cons_self, hstep⟩
        · obtain ⟨step', hmem, hstep'⟩ := ih h
          exact ⟨step', List.mem_cons_of_mem step hmem, hstep'⟩

/-- The code runs these load steps. -/
def Exec.Loads (x : Exec Unit) (steps : List LoadStep) : Prop :=
  ∀ m, x.run m = ({ m with regs := (loadAll m.mem steps).1.foldl RegCall.run m.regs },
    (loadAll m.mem steps).2)

namespace Exec

theorem loads_step {x : Exec Unit} {step : LoadStep}
    (h : ∀ m, x.run m = match step m.mem with
      | .error e => (m, .error e)
      | .ok op => (MachineCall.run m (.reg op), .ok ())) : x.Loads [step] := by
  intro m
  rw [h]
  simp only [loadAll]
  rcases step m.mem with e | op <;> rfl

/-- A read of memory, then a write of what it gave. -/
theorem loads_attempt {α : Type} (g : Memory → Except EmuError α) (op : α → RegCall) :
    (attempt (fun m => g m.mem) >>= fun v => call (.reg (op v))).Loads
      [fun mem => (g mem).map op] := by
  apply loads_step
  intro m
  rw [run_bind, run_attempt]
  rcases g m.mem with e | v <;> rfl

theorem loads_attempt_map {α : Type} (g : Memory → Except EmuError α) (f : α → Word)
    (op : Word → RegCall) :
    ((f <$> attempt fun m => g m.mem) >>= fun v => call (.reg (op v))).Loads
      [fun mem => (g mem).map fun v => op (f v)] := by
  apply loads_step
  intro m
  have hmap : (f <$> attempt fun m => g m.mem : Exec Word).run m = (m, (g m.mem).map f) := by
    show ((attempt fun m => g m.mem) >>= fun v => pure (f v)).run m = _
    rw [run_bind, run_attempt]
    rcases g m.mem with e | v <;> rfl
  rw [run_bind, hmap]
  rcases g m.mem with e | v <;> rfl

theorem loads_nil : (pure () : Exec Unit).Loads [] := fun _ => rfl

theorem Loads.bind {x y : Exec Unit} {first second : List LoadStep} (hx : x.Loads first)
    (hy : y.Loads second) : (x >>= fun _ => y).Loads (first ++ second) := by
  intro m
  rw [run_bind, hx, loadAll_append]
  rcases hfirst : loadAll m.mem first with ⟨ops, e | ⟨⟩⟩
  · rfl
  · simp only
    rw [hy]
    simp only [List.foldl_append]

theorem loads_each {α : Type} {body : α → Exec Unit} {step : α → LoadStep}
    (h : ∀ a, (body a).Loads [step a]) (l : List α) : (each l body).Loads (l.map step) := by
  induction l with
  | nil => exact loads_nil
  | cons a l ih => exact (h a).bind ih

end Exec

end LoadSteps

end Playground
