/-
The library's own code: it runs over the machine's methods and the side state the
library keeps, and ends in a value or an error.  What ran before an error stays.
-/
import Playground.Isa.Exec

namespace Playground

/-- The side state before anything has run. -/
def HostSide.idle : HostSide where
  stdout := []
  stderr := []
  stdin := []
  vfs := []
  openFiles := []
  nextFd := 3
  randState := ⟨[], 0, 0, 0⟩
  term := default
  strtokSave := 0
  callbacks := default
  callScratch := default

namespace Hosted

/-- A page of memory at 0x500000 that starts with `bytes`. -/
def textMemory (bytes : List Byte) : Memory :=
  { Memory.new with
    pages := (∅ : Pages).insert 0x500000 fun off => bytes.getD off.toNat 0 }

end Hosted

/-- Library code that may fail.  Unfolded at `HostOutcome` it is a `HostFn`. -/
def Stub (α : Type) := HostSide → Bool → Machine → Routine (HostSide × Except EmuError α)

namespace Stub

variable {α β : Type}

/-- The machine and the side state the code leaves, and how it ended. -/
def run (x : Stub α) (side : HostSide) (closed : Bool) (m : Machine) :
    Machine × HostSide × Except EmuError α :=
  (x side closed m).run m

def ret (a : α) : Stub α := fun side _ _ => .done (side, .ok a)

def bind (x : Stub α) (f : α → Stub β) : Stub β := fun side closed m =>
  (x side closed m).andThen m fun result m =>
    match result.2 with
    | .ok a => f a result.1 closed m
    | .error e => .done (result.1, .error e)

instance : Monad Stub where
  pure := ret
  bind := bind

def fail (e : EmuError) : Stub α := fun side _ _ => .done (side, .error e)

/-- Look at the side state. -/
def look (f : HostSide → α) : Stub α := fun side _ _ => .done (side, .ok (f side))

/-- Change the side state. -/
def modify (f : HostSide → HostSide) : Stub Unit := fun side _ _ => .done (f side, .ok ())

/-- Whether the caller has signalled the end of the input. -/
def stdinClosed : Stub Bool := fun side closed _ => .done (side, .ok closed)

/-- Code that leaves the side state alone. -/
def exec (x : Exec α) : Stub α := fun side _ m =>
  (x m).andThen m fun result _ => .done (side, result)

instance : MonadLift Exec Stub := ⟨exec⟩

section Run

variable (side : HostSide) (closed : Bool) (m : Machine)

@[simp]
theorem run_pure (a : α) : (pure a : Stub α).run side closed m = (m, side, .ok a) := rfl

@[simp]
theorem run_fail (e : EmuError) :
    (fail e : Stub α).run side closed m = (m, side, .error e) := rfl

@[simp]
theorem run_look (f : HostSide → α) :
    (look f).run side closed m = (m, side, .ok (f side)) := rfl

@[simp]
theorem run_modify (f : HostSide → HostSide) :
    (modify f).run side closed m = (m, f side, .ok ()) := rfl

@[simp]
theorem run_stdinClosed : stdinClosed.run side closed m = (m, side, .ok closed) := rfl

@[simp]
theorem run_exec (x : Exec α) :
    (exec x).run side closed m = ((x.run m).1, side, (x.run m).2) := by
  show ((x m).andThen m _).run m = _
  rw [Routine.run_andThen]
  rfl

@[simp]
theorem run_liftM (x : Exec α) :
    (liftM x : Stub α).run side closed m = ((x.run m).1, side, (x.run m).2) :=
  run_exec side closed m x

theorem run_bind (x : Stub α) (f : α → Stub β) :
    (x >>= f).run side closed m =
      match x.run side closed m with
      | (m, side, .ok a) => (f a).run side closed m
      | (m, side, .error e) => (m, side, .error e) := by
  show ((x side closed m).andThen m _).run m = _
  rw [Routine.run_andThen]
  rcases hx : (x side closed m).run m with ⟨m', side', result⟩
  have hrun : x.run side closed m = (m', side', result) := hx
  rw [hrun]
  cases result <;> rfl

end Run

variable {side side' : HostSide} {closed : Bool} {m m' : Machine}

/-- Code that succeeds goes on from where it left the machine and the side state. -/
theorem run_bind_ok {x : Stub α} {f : α → Stub β} {a : α}
    (h : x.run side closed m = (m', side', .ok a)) :
    (x >>= f).run side closed m = (f a).run side' closed m' := by
  rw [run_bind, h]

theorem run_bind_error {x : Stub α} {f : α → Stub β} {e : EmuError}
    (h : x.run side closed m = (m', side', .error e)) :
    (x >>= f).run side closed m = (m', side', .error e) := by
  rw [run_bind, h]

end Stub

end Playground
