/-
The literal pool and the host-call trampolines, sized and placed after `.text`.  A slot
is keyed by the operand's text and, for an expression that names `.`, by the address of
the load.
-/
import Playground.Frontend.Operands
import Playground.Frontend.Placement

namespace Playground

/-- The operand's text, and the load's address when the expression names `.`. -/
abbrev PoolKey := String × Option Word

/-- The literal pool and the trampolines.  A slot is a byte offset from `base`. -/
structure Pool where
  slots : PoolKey → Option Nat
  values : List Word
  trampolines : List String
  trampAddr : String → Option Word
  trampBase : Word
  base : Word

/-- The constant of a pool slot: its text, evaluated at a line. -/
def resolveLdrEqTarget (text : String) (s : Scope) (here : Word) (line : Nat) :
    Except EmuError Word := do
  let tokens ← lex text line
  Operands.evaluateLinked tokens s here line

/-- The scan of `.text`: slots, constants and trampolines so far. -/
structure PoolScan where
  slots : PoolKey → Option Nat
  values : List Word
  trampolines : List String

namespace PoolScan

def empty : PoolScan := ⟨fun _ => none, [], []⟩

/-- A slot for the key, allocated on its first use. -/
def addSlot (scan : PoolScan) (key : PoolKey) (value : Except EmuError Word) :
    Except EmuError PoolScan :=
  match scan.slots key with
  | some _ => .ok scan
  | none => do
      let value ← value
      return { scan with
        slots := Function.update scan.slots key (some (scan.values.length * 8))
        values := scan.values ++ [value] }

/-- A trampoline for a call that goes to the host. -/
def addCall (scan : PoolScan) (s : Scope) (tokens : List Token) : PoolScan :=
  match extractCallTarget tokens true with
  | none => scan
  | some target =>
      match s.symbols target with
      | none => scan
      | some addr =>
          if isHostAddress addr ∧ target ∉ scan.trampolines then
            { scan with trampolines := scan.trampolines ++ [target] }
          else scan

/-- One instruction of `.text`, at `pc`. -/
def scanInstruction (s : Scope) (scan : PoolScan) (tokens : List Token) (line : Nat)
    (pc : Word) : Except EmuError PoolScan :=
  match extractLdrEqOperand tokens with
  | some (text, dotRelative) =>
      let here := if dotRelative then some pc else none
      scan.addSlot (text, here) (resolveLdrEqTarget text s (here.getD 0) line)
  | none =>
      match extractLdrLabelLoad tokens with
      | some (_, text) => scan.addSlot (text, none) (resolveLdrEqTarget text s 0 line)
      | none => .ok (scan.addCall s tokens)

/-- The instructions of `.text` in order, each with the address placement gave it. -/
def scanItems (s : Scope) : PoolScan → List Item → List Word → Except EmuError PoolScan
  | scan, [], _ => .ok scan
  | scan, .instruction tokens line :: items, pcs => do
      let scan ← scan.scanInstruction s tokens line (pcs.headD 0)
      scanItems s scan items pcs.tail
  | scan, _ :: items, pcs => scanItems s scan items pcs

/-- A slot for a trampoline's stub address, unless the name already has one. -/
def addStub (scan : PoolScan) (name : String) (addr : Word) : PoolScan :=
  match scan.slots (name, none) with
  | some _ => scan
  | none => { scan with
      slots := Function.update scan.slots (name, none) (some (scan.values.length * 8))
      values := scan.values ++ [addr] }

end PoolScan

/-- The offset of the first trampoline: past `.text`, at least four bytes on. -/
def trampolineOffset (textLen : Nat) : Nat := (textLen + 8) / 8 * 8

def poolTooLarge (size : Nat) : String :=
  ".text plus its literal pool and libc trampolines reaches " ++ toString size ++
  " bytes, past the 1 MiB code window. Shrink .text, or reduce the `ldr xN, =...` " ++
  "constants and libc calls"

def Program.textItems (program : Program) : List Item :=
  (program.sections.filter fun s => s.kind = .text).flatMap Section.items

/-- Name each trampoline in the symbol table and give it a slot.  A stub address is read
from the table as it stands then, with the trampolines named before it. -/
def wireTrampolines (trampBase : Word) :
    Nat → List String → SymbolTable × PoolScan → SymbolTable × PoolScan
  | _, [], wired => wired
  | idx, name :: names, (symbols, scan) =>
      let symbols := Function.update symbols (trampolineLabel name)
        (some (trampBase + BitVec.ofNat 64 (idx * 8)))
      wireTrampolines trampBase (idx + 1) names
        (symbols, scan.addStub name ((symbols name).getD 0))

/-- Scan `.text` for literal loads and host calls, and place the trampolines and the
pool after it. -/
def sizeLiteralPool (program : Program) (layout : Layout) : Except EmuError (Layout × Pool) := do
  let scan ← PoolScan.scanItems layout.toScope PoolScan.empty program.textItems
    layout.textInstrPcs
  let trampOffset := trampolineOffset layout.textLen
  let poolOffset := trampOffset + scan.trampolines.length * 8
  let imageEnd := poolOffset + (scan.values.length + scan.trampolines.length) * 8
  if sectionWindow < imageEnd then
    .error (.assemblyError 0 (poolTooLarge imageEnd))
  else
    let trampBase := SectionKind.text.addr trampOffset
    let (symbols, full) := wireTrampolines trampBase 0 scan.trampolines (layout.symbols, scan)
    return ({ layout with symbols := symbols }, {
      slots := full.slots
      values := full.values
      trampolines := scan.trampolines
      trampAddr := fun name =>
        (scan.trampolines.idxOf? name).map fun i => trampBase + BitVec.ofNat 64 (i * 8)
      trampBase := trampBase
      base := SectionKind.text.addr poolOffset })

end Playground
