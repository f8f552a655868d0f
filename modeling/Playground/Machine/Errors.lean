/-
The error type every fallible operation of the emulator returns, and the text
each variant prints.
-/
import Mathlib

namespace Playground

theorem bind_eq_ok {ε α β : Type} {x : Except ε α} {f : α → Except ε β} {b : β}
    (h : (x >>= f) = .ok b) : ∃ a, x = .ok a ∧ f a = .ok b := by
  cases x with
  | error e => simp [bind, Except.bind] at h
  | ok a => exact ⟨a, rfl, h⟩

/-- How a faulting memory access was attempted. -/
inductive MemAccess
  | read
  | write
deriving DecidableEq, Repr

/-- Every fallible operation in the emulator returns this. -/
inductive EmuError
  | unknownInstruction (word : BitVec 32)
  | memoryFault (address : BitVec 64) (access : MemAccess)
  | unalignedAccess (address : BitVec 64) (required : Nat)
  | stackOverflow
  | assemblyError (line : Nat) (message : String)
  | preprocError (line : Nat) (message : String)
  | parseError (line : Nat) (message : String)
  | linkError (line : Nat) (message : String)
  | argvTooLarge (bytes : Nat)
  | nullPointerAccess (address : BitVec 64) (access : MemAccess)
  | spAlignmentFault (sp : BitVec 64) (atCall : Bool)
  | runtimeError (message : String)
deriving DecidableEq, Repr

/-- `{:x}`: the lower-case hexadecimal digits of a number. -/
def hexText (n : Nat) : String :=
  String.ofList (Nat.toDigits 16 n)

/-- `{:0wx}`: hexadecimal, padded with zeros to `width` digits. -/
def hexPadded (width n : Nat) : String :=
  let digits := Nat.toDigits 16 n
  String.ofList (List.replicate (width - digits.length) '0' ++ digits)

/-- The `Display` text of an error. -/
def EmuError.toString : EmuError → String
  | .unknownInstruction word =>
      "unknown instruction 0x" ++ hexPadded 8 word.toNat ++
      ": execution probably branched into data rather than code. Check the branch " ++
      "that got here, and the return address if this followed a ret"
  | .memoryFault address access =>
      "memory fault: the program tried to " ++
      (match access with | .read => "read" | .write => "write") ++
      " 0x" ++ hexPadded 16 address.toNat ++
      ", which no section covers. The base register (the first one inside the " ++
      "brackets, or a pointer passed to a call) does not hold an address, usually " ++
      "because `ldr xN, label` lost its `=` (it loads the value stored at the label) " ++
      "or a `mov` was written where `ldr xN, =label` was meant"
  | .unalignedAccess address required =>
      "unaligned access at 0x" ++ hexPadded 16 address.toNat ++
      ": this instruction needs an address that is a multiple of " ++
      ToString.toString required ++
      ". Check the offset added to the base register"
  | .stackOverflow =>
      "stack overflow: sp has moved more than 8 MiB below the stack base. Check the " ++
      "recursion's base case first, then check that every prologue has a matching " ++
      "epilogue with the same size, and that sp was never loaded from a register " ++
      "that had not been set up"
  | .assemblyError line message =>
      "assembly error at line " ++ ToString.toString line ++ ": " ++ message
  | .preprocError line message =>
      "preprocess error at line " ++ ToString.toString line ++ ": " ++ message
  | .parseError line message =>
      "parse error at line " ++ ToString.toString line ++ ": " ++ message
  | .linkError line message =>
      "link error at line " ++ ToString.toString line ++ ": " ++ message
  | .argvTooLarge bytes =>
      "the arguments need " ++ ToString.toString bytes ++
      " bytes, more than the 4 KiB the playground reserves for argv. Shorten the args " ++
      "box above the editor, or pass fewer arguments"
  | .nullPointerAccess address access =>
      "stopped: tried to " ++
      (match access with | .read => "read from" | .write => "write to") ++
      " address 0x" ++ hexText address.toNat ++
      ", which is not part of any program section (the servers kill this with a " ++
      "segmentation fault). A base register is holding a small number instead of an " ++
      "address: check for a `mov`, or an `ldr xN, label` missing its `=`, where you " ++
      "meant `ldr xN, =label`, or an m4 alias that reuses a register a pointer is " ++
      "already living in (`define(i_r, w19)` after `ldr x19, =arr` overwrites the " ++
      "pointer)"
  | .spAlignmentFault sp atCall =>
      "Bus error\nsp is 0x" ++ hexText sp.toNat ++
      (if atCall then " at this call" else "") ++
      ", which is not a multiple of 16: round the frame size above it up to a " ++
      "multiple of 16 (32 instead of 24), or size it with `alloc = -(16 + locals) & -16`"
  | .runtimeError message => message

end Playground
