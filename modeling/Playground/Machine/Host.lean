/-
What the program sees of the operating system: the side state the library stubs
and the syscalls own, and the programs they are.  A stub is any code that reaches
the registers, memory and the heap through their own methods; their fields are
private, so nothing else is possible.
-/
import Playground.Machine.HeapUndo
import Playground.Machine.MemoryUndo
import Playground.Machine.RegisterUndo

namespace Playground

/-- The register file, memory and the allocator. -/
structure Machine where
  regs : RegisterFile
  mem : Memory
  heap : HeapState

/-- One call that writes memory. -/
inductive MemCall
  | writeU8 (addr : Word) (val : Byte)
  | writeU16 (addr : Word) (val : BitVec 16)
  | writeU32 (addr : Word) (val : BitVec 32)
  | writeU64 (addr : Word) (val : Word)
  | writeU128 (addr : Word) (val : BitVec 128)
  | writeBytes (addr : Word) (bytes : List Byte)
  | noteBulkRead (len : Nat)

/-- The memory after a call.  A call that faults keeps the bytes it wrote first. -/
def MemCall.run (m : Memory) : MemCall → Memory
  | .writeU8 addr val => (m.writeU8 addr val).1
  | .writeU16 addr val => (m.writeU16 addr val).1
  | .writeU32 addr val => (m.writeU32 addr val).1
  | .writeU64 addr val => (m.writeU64 addr val).1
  | .writeU128 addr val => (m.writeU128 addr val).1
  | .writeBytes addr bytes => (m.writeBytes addr bytes).1
  | .noteBulkRead len => m.noteBulkRead len

theorem length_leBytes (n value : Nat) : (Memory.leBytes n value).length = n := by
  induction n generalizing value with
  | zero => rfl
  | succ n ih => simp [Memory.leBytes, ih]

theorem Memory.keeps_run (m : Memory) (call : MemCall) : Memory.Keeps m (call.run m) := by
  cases call with
  | writeU8 addr val => exact keeps_writeByte m addr val
  | writeU16 addr val =>
      exact keeps_writeLe m addr _ (by simp [length_leBytes]) (by simp [length_leBytes])
  | writeU32 addr val =>
      exact keeps_writeLe m addr _ (by simp [length_leBytes]) (by simp [length_leBytes])
  | writeU64 addr val =>
      exact keeps_writeLe m addr _ (by simp [length_leBytes]) (by simp [length_leBytes])
  | writeU128 addr val =>
      exact keeps_writeLe m addr _ (by simp [length_leBytes]) (by simp [length_leBytes])
  | writeBytes addr bytes => exact keeps_writeBytes m addr bytes
  | noteBulkRead len =>
      exact ⟨rfl, rfl, id, fun _ _ hr => ⟨hr.recording, hr.lengths, hr.short, hr.mapped,
        hr.restores⟩⟩

/-- One call an instruction or a library stub makes on the machine. -/
inductive MachineCall
  | reg (call : RegCall)
  | mem (call : MemCall)
  | heap (call : HeapCall)

def MachineCall.run (m : Machine) : MachineCall → Machine
  | .reg call => { m with regs := call.run m.regs }
  | .mem call => { m with mem := call.run m.mem }
  | .heap call => { m with heap := call.run m.heap }

/-- Code over the machine's methods: it may look at the whole machine between
calls, and ends in a value. -/
inductive Routine (ρ : Type)
  | done (result : ρ)
  | invoke (op : MachineCall) (next : Machine → Routine ρ)

namespace Routine

variable {ρ : Type}

def run (m : Machine) : Routine ρ → Machine × ρ
  | .done result => (m, result)
  | .invoke op next =>
      let m := op.run m
      (next m).run m

/-- What every call preserves, a whole routine preserves. -/
theorem run_induction {motive : Machine → Prop} (routine : Routine ρ) {m : Machine}
    (h : motive m) (hstep : ∀ m op, motive m → motive (MachineCall.run m op)) :
    motive (routine.run m).1 := by
  induction routine generalizing m with
  | done result => exact h
  | invoke op next ih => exact ih _ (hstep m op h)

end Routine

/-- What happened in an instruction, for the driver. -/
inductive ExecResult
  | advance
  | branched
  | halted
  | syscall
deriving DecidableEq, Repr

/-- How a stub or a syscall ended. -/
inductive HostOutcome
  | continue
  | needInput
  | sleep (ns : Nat)
  | exited (code : Int)
  | call (target : Word)
deriving DecidableEq, Repr

structure OpenFile where
  path : String
  offset : Nat
  writable : Bool
deriving DecidableEq, Repr

/-- Terminal and timing state behind the interactive syscalls. -/
structure TermState where
  virtualNs : Nat
  stdinNonblock : Bool
  rawMode : Bool
  stdinIsFile : Bool
deriving DecidableEq, Repr

instance : Inhabited TermState := ⟨⟨0, false, false, false⟩⟩

/-- glibc's additive generator and the word `getrandom` draws from. -/
structure RandState where
  r : List (BitVec 32)
  f : Nat
  rp : Nat
  entropy : Word
deriving DecidableEq, Repr

/-- One `qsort` or `bsearch` in progress. -/
structure Job where
  search : Bool
  base : Word
  count : Nat
  size : Nat
  compare : Word
  key : Word
  caller : Word
  next : Nat
  lo : Nat
  hi : Nat
deriving DecidableEq, Repr

/-- The in-flight calls, innermost last, and the stub being dispatched. -/
structure CallbackState where
  stubPc : Word
  jobs : List Job
deriving DecidableEq, Repr

instance : Inhabited CallbackState := ⟨⟨0, []⟩⟩

/-- No `qsort` or `bsearch` is part-way through. -/
def CallbackState.isIdle (s : CallbackState) : Bool := s.jobs.isEmpty

/-- One conversion of a `printf` or `scanf` as the call ran it. -/
structure Conversion where
  fmtStart : Nat
  fmtEnd : Nat
  source : Int
  arg : Word
  stored : Word
  size : Nat
  textStart : Nat
  textEnd : Nat
  code : Nat
deriving DecidableEq, Repr

/-- A `printf` or `scanf` call, conversion by conversion, for the call card. -/
structure CallRecord where
  kind : Nat
  began : Bool
  step : Nat
  callPc : Word
  result : Word
  failed : Bool
  fmt : List Byte
  fmtLen : Nat
  text : List Byte
  textLen : Nat
  strings : List Byte
  rows : List Conversion
  conversions : Nat
deriving DecidableEq, Repr

instance : Inhabited CallRecord := ⟨⟨0, false, 0, 0, 0, false, [], 0, [], 0, [], [], 0⟩⟩

/-- The part of the cpu a stub borrows besides the machine. -/
structure HostSide where
  stdout : List Byte
  stderr : List Byte
  stdin : List Byte
  vfs : List (String × List Byte)
  openFiles : List (Nat × OpenFile)
  nextFd : Nat
  randState : RandState
  term : TermState
  strtokSave : Word
  callbacks : CallbackState
  callScratch : CallRecord

/-- A library stub or a syscall: it reads `stdinClosed` and the machine, and
leaves its side state as it likes. -/
abbrev HostFn := HostSide → Bool → Machine → Routine (HostSide × Except EmuError HostOutcome)

def hostStubBase : Word := 0xFFFF0000

def hostStubStride : Nat := 16

/-- Host stubs by name, addressable in the `hostStubBase` range. -/
structure HostTable where
  entries : List (String × HostFn)

namespace HostTable

/-- Address of a named stub, if registered. -/
def lookup (t : HostTable) (name : String) : Option Word :=
  (t.entries.findIdx? fun entry => entry.1 == name).map fun i =>
    hostStubBase + BitVec.ofNat 64 (i * hostStubStride)

/-- Whether an address falls inside the host-stub range. -/
def containsAddress (t : HostTable) (address : Word) : Bool :=
  let stop := hostStubBase.toNat + t.entries.length * hostStubStride
  decide (hostStubBase.toNat ≤ address.toNat) && decide (address.toNat < stop) &&
    (address.toNat - hostStubBase.toNat) % hostStubStride == 0

/-- The stub at `address`, or `none` when no entry lives there. -/
def entryAt (t : HostTable) (address : Word) : Option (String × HostFn) :=
  if t.containsAddress address then
    t.entries[(address.toNat - hostStubBase.toNat) / hostStubStride]?
  else none

def nameForAddress (t : HostTable) (address : Word) : Option String :=
  (t.entryAt address).map Prod.fst

end HostTable

def returnsInD0 : List String :=
  ["atof", "sqrt", "pow", "sin", "cos", "tan", "log", "log10", "exp", "floor", "fabs", "fmod"]

def returnsNothing : List String := ["srand", "free", "qsort", "sincos"]

/-- What an instruction means to the call stack. -/
inductive CallKind
  | call
  | ret
  | lrStore
  | other
deriving DecidableEq, Repr

/-- A read an instruction makes without using the value. -/
inductive PassiveRead
  | stored (data : BitVec 64)
  | copied (source dest : Nat)
  | used

/-- The code the cpu drives: the decoder, the executor and its view of an
instruction, the library and the syscalls. -/
structure Platform where
  Instr : Type
  decode : BitVec 32 → Except EmuError Instr
  execute : Instr → Machine → Routine (Except EmuError ExecResult)
  callKind : Instr → CallKind
  passiveRead : Instr → PassiveRead
  host : HostTable
  syscall : Nat → HostFn

end Playground
