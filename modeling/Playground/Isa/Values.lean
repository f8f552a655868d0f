/-
What the registers hold, apart from the notes kept about them: a read changes the notes
only, and a write changes one register.
-/
import Playground.Isa.Exec

namespace Playground

/-- The contents of x0-x30, v0-v31, sp, pc and the flags. -/
@[ext]
structure RegisterValues where
  gpr : Fin 31 → Word
  fpr : Fin 32 → BitVec 128
  sp : Word
  pc : Word
  nzcv : NzcvFlags

namespace RegisterFile

def values (r : RegisterFile) : RegisterValues := ⟨r.gpr, r.fpr, r.sp, r.pc, r.nzcv⟩

@[simp]
theorem values_log (r : RegisterFile) (edit : RegEdit) : (r.log edit).values = r.values := by
  unfold log
  split <;> rfl

@[simp]
theorem values_markFlagsRead (r : RegisterFile) : r.markFlagsRead.values = r.values := by
  unfold markFlagsRead
  split <;> rfl

@[simp]
theorem values_readGpr (r : RegisterFile) (index : Nat) (sf : Bool) :
    (r.readGpr index sf).1.values = r.values := by
  unfold readGpr
  simp only
  split <;> rfl

@[simp]
theorem values_conditionHolds (r : RegisterFile) (cond : Condition) :
    (r.conditionHolds cond).1.values = r.values := by
  unfold conditionHolds
  simp only
  split
  · rfl
  · exact values_markFlagsRead r

@[simp]
theorem values_carryFlag (r : RegisterFile) : r.carryFlag.1.values = r.values :=
  values_markFlagsRead r

@[simp]
theorem values_readFprBits (r : RegisterFile) (index : Nat) :
    (r.readFprBits index).1.values = r.values := by
  unfold readFprBits
  split <;> rfl

/-- A general register at a width: 31 reads as zero. -/
theorem gprValue_congr {r r' : RegisterFile} (h : r.values = r'.values) (index : Nat)
    (sf : Bool) : r.gprValue index sf = r'.gprValue index sf := by
  have hgpr : r.gpr = r'.gpr := congrArg RegisterValues.gpr h
  unfold gprValue
  rw [hgpr]

theorem values_writeGpr (r : RegisterFile) (index : Nat) (sf : Bool) (value : Word) :
    (r.writeGpr index sf value).values =
      if h : index < 31 then
        { r.values with
          gpr := Function.update r.gpr ⟨index, h⟩ (if sf then value else value &&& 0xFFFFFFFF) }
      else r.values := by
  unfold writeGpr
  by_cases h : index < 31
  · rw [dif_pos h, dif_pos h]
    unfold log
    simp only
    split <;> rfl
  · rw [dif_neg h, dif_neg h]

end RegisterFile

/-- One general register replaced; 31 is the zero register. -/
def RegisterValues.withX (r : RegisterValues) (index : Nat) (value : Word) : RegisterValues :=
  if h : index < 31 then { r with gpr := Function.update r.gpr ⟨index, h⟩ value } else r

namespace Exec

variable {α β : Type}

/-- Code that only looks: it ends in `a`, and the registers hold what they held. -/
def Reads (x : Exec α) (m : Machine) (a : α) : Prop :=
  ∃ r, x.run m = ({ m with regs := r }, .ok a) ∧ r.values = m.regs.values

theorem reads_pure (a : α) (m : Machine) : (pure a : Exec α).Reads m a := ⟨m.regs, rfl, rfl⟩

theorem reads_look (f : Machine → α) (m : Machine) : (look f).Reads m (f m) := ⟨m.regs, rfl, rfl⟩

theorem reads_readGpr (index : Nat) (sf : Bool) (m : Machine) :
    (readGpr index sf).Reads m (m.regs.gprValue index sf) :=
  ⟨(m.regs.readGpr index sf).1, rfl, m.regs.values_readGpr index sf⟩

theorem reads_conditionHolds (cond : Condition) (m : Machine) :
    (conditionHolds cond).Reads m (m.regs.nzcv.check cond) :=
  ⟨(m.regs.conditionHolds cond).1, rfl, m.regs.values_conditionHolds cond⟩

theorem reads_carryFlag (m : Machine) : carryFlag.Reads m m.regs.nzcv.c :=
  ⟨m.regs.carryFlag.1, rfl, m.regs.values_carryFlag⟩

/-- A register or the stack pointer at a width. -/
theorem reads_readGprOrSp (index : Nat) (sf : Bool) (m : Machine) :
    (readGprOrSp index sf).Reads m
      (if 31 ≤ index then (if sf then m.regs.sp else m.regs.sp &&& 0xFFFFFFFF)
        else m.regs.gprValue index sf) := by
  unfold readGprOrSp
  split
  · exact reads_look _ m
  · exact reads_readGpr index sf m

theorem Reads.bind {x : Exec α} {f : α → Exec β} {m : Machine} {a : α} (h : x.Reads m a) :
    ∃ r, (x >>= f).run m = (f a).run { m with regs := r } ∧ r.values = m.regs.values := by
  obtain ⟨r, hrun, hvalues⟩ := h
  exact ⟨r, run_bind_ok hrun, hvalues⟩

/-- Code ends well and leaves a value in a general register. -/
def Leaves (x : Exec ExecResult) (m : Machine) (rd : Fin 31) (value : Word) : Prop :=
  ∃ m', x.run m = (m', .ok .advance) ∧ m'.regs.gpr rd = value

section Leaves

variable {m : Machine} {rd : Nat} {value : Word}

theorem Leaves.of_bind {x : Exec α} {f : α → Exec ExecResult} {a : α} {rd : Fin 31}
    (hread : x.Reads m a)
    (h : ∀ r, r.values = m.regs.values → (f a).Leaves { m with regs := r } rd value) :
    (x >>= f).Leaves m rd value := by
  obtain ⟨r, hrun, hvalues⟩ := hread.bind (f := f)
  unfold Leaves
  rw [hrun]
  exact h r hvalues

theorem leaves_writeGpr (h : rd < 31) (sf : Bool) (value : Word) (m : Machine) :
    (do writeGpr rd sf value
        return .advance : Exec ExecResult).Leaves m ⟨rd, h⟩
      (if sf then value else value &&& 0xFFFFFFFF) := by
  refine ⟨_, rfl, ?_⟩
  have hvalues := congrArg RegisterValues.gpr (m.regs.values_writeGpr rd sf value)
  rw [dif_pos h] at hvalues
  exact (congrFun hvalues ⟨rd, h⟩).trans (Function.update_self _ _ _)

/-- The code ends in one way, so what it leaves is all it can leave. -/
theorem Leaves.unique {x : Exec ExecResult} {rd : Fin 31} {m' : Machine}
    (h : x.Leaves m rd value) (hrun : x.run m = (m', .ok .advance)) :
    m'.regs.gpr rd = value := by
  obtain ⟨m'', hrun', hvalue⟩ := h
  rw [hrun] at hrun'
  cases hrun'
  exact hvalue

end Leaves

/-- Code ends well, having replaced what one general register holds. -/
def Sets (x : Exec ExecResult) (m : Machine) (rd : Nat) (value : Word) : Prop :=
  ∃ r, x.run m = ({ m with regs := r }, .ok .advance) ∧ r.values = m.regs.values.withX rd value

section Sets

variable {m : Machine} {rd : Nat} {value : Word}

theorem Sets.of_bind {x : Exec α} {f : α → Exec ExecResult} {a : α} (hread : x.Reads m a)
    (h : ∀ r, r.values = m.regs.values → (f a).Sets { m with regs := r } rd value) :
    (x >>= f).Sets m rd value := by
  obtain ⟨r, hrun, hvalues⟩ := hread.bind (f := f)
  obtain ⟨r', hrun', hvalues'⟩ := h r hvalues
  exact ⟨r', hrun.trans hrun', by rw [hvalues', hvalues]⟩

theorem sets_writeGpr (rd : Nat) (sf : Bool) (value : Word) (m : Machine) :
    (do writeGpr rd sf value
        return .advance : Exec ExecResult).Sets m rd
      (if sf then value else value &&& 0xFFFFFFFF) :=
  ⟨_, rfl, m.regs.values_writeGpr rd sf value⟩

end Sets

end Exec

end Playground
