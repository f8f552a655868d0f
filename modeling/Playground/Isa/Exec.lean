/-
Executor code: a run over the machine's own methods that ends in a value or an error.
What ran before an error stays.
-/
import Playground.Machine.Host

namespace Playground

namespace Routine

variable {ρ σ : Type}

/-- One routine after another; `m` is the machine the first starts in. -/
def andThen (m : Machine) (next : ρ → Machine → Routine σ) : Routine ρ → Routine σ
  | .done result => next result m
  | .invoke op rest => .invoke op fun m => (rest m).andThen m next

theorem andThen_andThen {τ : Type} (m : Machine) (next : ρ → Machine → Routine σ)
    (last : σ → Machine → Routine τ) (routine : Routine ρ) :
    (routine.andThen m next).andThen m last =
      routine.andThen m fun result m => (next result m).andThen m last := by
  induction routine generalizing m with
  | done result => rfl
  | invoke op rest ih =>
      simp only [andThen]
      congr 1
      funext m'
      exact ih m' m'

theorem run_andThen (m : Machine) (next : ρ → Machine → Routine σ) (routine : Routine ρ) :
    (routine.andThen m next).run m =
      (next (routine.run m).2 (routine.run m).1).run (routine.run m).1 := by
  induction routine generalizing m with
  | done result => rfl
  | invoke op rest ih => exact ih _ _

end Routine

/-- Code that may fail, started in a machine. -/
def Exec (α : Type) := Machine → Routine (Except EmuError α)

namespace Exec

variable {α β : Type}

/-- The machine the code leaves, and how it ended. -/
def run (x : Exec α) (m : Machine) : Machine × Except EmuError α := (x m).run m

def ret (a : α) : Exec α := fun _ => .done (.ok a)

def bind (x : Exec α) (f : α → Exec β) : Exec β := fun m =>
  (x m).andThen m fun result m =>
    match result with
    | .ok a => f a m
    | .error e => .done (.error e)

instance : Monad Exec where
  pure := ret
  bind := bind

def fail (e : EmuError) : Exec α := fun _ => .done (.error e)

def look (f : Machine → α) : Exec α := fun m => .done (.ok (f m))

/-- Look at the machine, and fail if it says so. -/
def attempt (f : Machine → Except EmuError α) : Exec α := fun m => .done (f m)

/-- Call one of the machine's methods. -/
def call (op : MachineCall) : Exec Unit := fun _ => .invoke op fun _ => .done (.ok ())

@[simp]
theorem run_pure (a : α) (m : Machine) : (pure a : Exec α).run m = (m, .ok a) := rfl

@[simp]
theorem run_fail (e : EmuError) (m : Machine) : (fail e : Exec α).run m = (m, .error e) := rfl

@[simp]
theorem run_look (f : Machine → α) (m : Machine) : (look f).run m = (m, .ok (f m)) := rfl

@[simp]
theorem run_attempt (f : Machine → Except EmuError α) (m : Machine) :
    (attempt f).run m = (m, f m) := rfl

@[simp]
theorem run_call (op : MachineCall) (m : Machine) : (call op).run m = (op.run m, .ok ()) := rfl

theorem run_bind (x : Exec α) (f : α → Exec β) (m : Machine) :
    (x >>= f).run m =
      match x.run m with
      | (m, .ok a) => (f a).run m
      | (m, .error e) => (m, .error e) := by
  show ((x m).andThen m _).run m = _
  rw [Routine.run_andThen]
  rcases hx : (x m).run m with ⟨m', result⟩
  have hrun : x.run m = (m', result) := hx
  rw [hrun]
  cases result <;> rfl

theorem bind_assoc {γ : Type} (x : Exec α) (f : α → Exec β) (g : β → Exec γ) :
    (x >>= f) >>= g = x >>= fun a => f a >>= g := by
  funext m
  refine (Routine.andThen_andThen m _ _ (x m)).trans ?_
  show (x m).andThen m _ = (x m).andThen m _
  congr 1
  funext result m'
  cases result <;> rfl

/-- A step that succeeds goes on from where it left the machine. -/
theorem run_bind_ok {x : Exec α} {f : α → Exec β} {m m' : Machine} {a : α}
    (h : x.run m = (m', .ok a)) : (x >>= f).run m = (f a).run m' := by
  rw [run_bind, h]

theorem run_map_ok {x : Exec α} {m m' : Machine} {a : α} (f : α → β)
    (h : x.run m = (m', .ok a)) : (f <$> x).run m = (m', .ok (f a)) := by
  show (x >>= fun a => pure (f a)).run m = _
  rw [run_bind_ok h, run_pure]

/-- Read a general-purpose register. -/
def readGpr (index : Nat) (sf : Bool) : Exec Word := do
  let value ← look fun m => m.regs.gprValue index sf
  call (.reg (.readGpr index sf))
  return value

def writeGpr (index : Nat) (sf : Bool) (value : Word) : Exec Unit :=
  call (.reg (.writeGpr index sf value))

def readSp : Exec Word := look fun m => m.regs.sp

def readPc : Exec Word := look fun m => m.regs.pc

def writePc (value : Word) : Exec Unit := call (.reg (.writePc value))

/-- Read a register where index 31 means SP. -/
def readGprOrSp (index : Nat) (sf : Bool) : Exec Word :=
  if 31 ≤ index then look fun m => if sf then m.regs.sp else m.regs.sp &&& 0xFFFFFFFF
  else readGpr index sf

/-- Write a register where index 31 means SP. -/
def writeGprOrSp (index : Nat) (sf : Bool) (value : Word) : Exec Unit :=
  if 31 ≤ index then call (.reg (.writeSp (if sf then value else value &&& 0xFFFFFFFF)))
  else writeGpr index sf value

/-- The executor's own assignments to the flags. -/
def assignNzcv (flags : NzcvFlags) : Exec Unit := call (.reg (.assignNzcv flags))

def setNzcv (flags : NzcvFlags) : Exec Unit := call (.reg (.setNzcv flags))

def conditionHolds (cond : Condition) : Exec Bool := do
  let holds ← look fun m => m.regs.nzcv.check cond
  call (.reg (.conditionHolds cond))
  return holds

def carryFlag : Exec Bool := do
  let carry ← look fun m => m.regs.nzcv.c
  call (.reg .carryFlag)
  return carry

def readFprBits (index : Nat) : Exec Word := do
  let value ← look fun m => (m.regs.readFprBits index).2
  call (.reg (.readFprBits index))
  return value

/-- Read the whole 128-bit register. -/
def readFprQ (index : Nat) : Exec (BitVec 128) :=
  look fun m => if h : index < 32 then m.regs.fpr ⟨index, h⟩ else 0

def writeFprScalar (index bytes : Nat) (value : Word) : Exec Unit :=
  call (.reg (.writeFprScalar index bytes value))

def writeFprQ (index : Nat) (value : BitVec 128) : Exec Unit :=
  call (.reg (.writeFprQ index value))

def readU8 (addr : Word) : Exec Byte := attempt fun m => m.mem.readU8 addr

def readU16 (addr : Word) : Exec (BitVec 16) := attempt fun m => m.mem.readU16 addr

def readU32 (addr : Word) : Exec (BitVec 32) := attempt fun m => m.mem.readU32 addr

def readU64 (addr : Word) : Exec Word := attempt fun m => m.mem.readU64 addr

def readU128 (addr : Word) : Exec (BitVec 128) := attempt fun m => m.mem.readU128 addr

/-- A call that writes memory: what it wrote before it failed stays. -/
def store (op : MemCall) (result : Memory → Except EmuError Unit) : Exec Unit := fun m =>
  .invoke (.mem op) fun _ => .done (result m.mem)

def writeU8 (addr : Word) (val : Byte) : Exec Unit :=
  store (.writeU8 addr val) fun mem => (mem.writeU8 addr val).2

def writeU16 (addr : Word) (val : BitVec 16) : Exec Unit :=
  store (.writeU16 addr val) fun mem => (mem.writeU16 addr val).2

def writeU32 (addr : Word) (val : BitVec 32) : Exec Unit :=
  store (.writeU32 addr val) fun mem => (mem.writeU32 addr val).2

def writeU64 (addr : Word) (val : Word) : Exec Unit :=
  store (.writeU64 addr val) fun mem => (mem.writeU64 addr val).2

def writeU128 (addr : Word) (val : BitVec 128) : Exec Unit :=
  store (.writeU128 addr val) fun mem => (mem.writeU128 addr val).2

@[simp]
theorem run_readGpr (index : Nat) (sf : Bool) (m : Machine) :
    (readGpr index sf).run m =
      (MachineCall.run m (.reg (.readGpr index sf)), .ok (m.regs.gprValue index sf)) := rfl

@[simp]
theorem run_writeGpr (index : Nat) (sf : Bool) (value : Word) (m : Machine) :
    (writeGpr index sf value).run m =
      (MachineCall.run m (.reg (.writeGpr index sf value)), .ok ()) := rfl

@[simp]
theorem run_store (op : MemCall) (result : Memory → Except EmuError Unit) (m : Machine) :
    (store op result).run m = (MachineCall.run m (.mem op), result m.mem) := rfl

end Exec

end Playground
