/-
The registers a library call finds its arguments in and answers in.
-/
import Playground.Hosted.Heap
import Playground.Hosted.Stub
import Playground.Isa.Values

namespace Playground

namespace Hosted

open Exec

/-- The low half of a register as a signed number. -/
def asI32 (value : Word) : Int := (value.setWidth 32).toInt

theorem gprValue_readGpr (r : RegisterFile) (i j : Nat) (sf sf' : Bool) :
    (r.readGpr i sf).1.gprValue j sf' = r.gprValue j sf' :=
  RegisterFile.gprValue_congr (RegisterFile.values_readGpr r i sf) j sf'

theorem exec_bind_readGpr {α : Type} (i : Nat) (sf : Bool) (f : Word → Exec α) (m : Machine) :
    (readGpr i sf >>= f).run m =
      (f (m.regs.gprValue i sf)).run ⟨(m.regs.readGpr i sf).1, m.mem, m.heap⟩ :=
  Exec.run_bind_ok rfl

theorem run_bind_readGpr {α : Type} (i : Nat) (sf : Bool) (f : Word → Stub α) (side : HostSide)
    (closed : Bool) (m : Machine) :
    (liftM (readGpr i sf) >>= f).run side closed m =
      (f (m.regs.gprValue i sf)).run side closed ⟨(m.regs.readGpr i sf).1, m.mem, m.heap⟩ :=
  Stub.run_bind_ok rfl

section Registers

variable (r : RegisterFile) {i j : Nat} (value : Word) (sf : Bool)

theorem gpr_writeGpr (h : i < 31) :
    (r.writeGpr i true value).gpr = Function.update r.gpr ⟨i, h⟩ value := by
  have hvalues := RegisterFile.values_writeGpr r i true value
  rw [dif_pos h] at hvalues
  exact congrArg RegisterValues.gpr hvalues

theorem gprValue_writeGpr_narrow (h : i < 31) :
    (r.writeGpr i true value).gprValue i sf = if sf then value else value &&& 0xFFFFFFFF := by
  unfold RegisterFile.gprValue
  rw [gpr_writeGpr r value h, dif_pos h, Function.update_self]

theorem gprValue_writeGpr_same (h : i < 31) :
    (r.writeGpr i true value).gprValue i true = value :=
  gprValue_writeGpr_narrow r value true h

theorem gprValue_writeGpr_of_ne (hi : i < 31) (h : j ≠ i) :
    (r.writeGpr i true value).gprValue j sf = r.gprValue j sf := by
  unfold RegisterFile.gprValue
  rw [gpr_writeGpr r value hi]
  by_cases hj : j < 31
  · have hne : (⟨j, hj⟩ : Fin 31) ≠ ⟨i, hi⟩ := fun heq => h (congrArg Fin.val heq)
    rw [dif_pos hj, dif_pos hj, Function.update_of_ne hne]
  · rw [dif_neg hj, dif_neg hj]

end Registers

end Hosted

end Playground
