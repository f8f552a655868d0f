/-
Breakpoints in both of their forms: the editor lines a student clicked and the addresses
the CPU stops at, with the calls that change them.
-/
import Mathlib

namespace Playground

namespace Breakpoints

/-- The linker's map between instruction addresses and editor lines. -/
structure LineMap where
  addrToLine : List (Nat × Nat)
  lineToAddr : List (Nat × Nat)
deriving DecidableEq, Repr

def emptyLineMap : LineMap := ⟨[], []⟩

def LineMap.isEmpty (map : LineMap) : Bool := map.addrToLine.isEmpty

/-- The nearer of the lines found so far at or after `line` and one more. -/
def nearerLine (line : Nat) (best : Option (Nat × Nat)) (entry : Nat × Nat) :
    Option (Nat × Nat) :=
  if line ≤ entry.1 ∧ best.all (fun b => decide (entry.1 < b.1)) = true then some entry else best

/-- The instruction at a line, or the next one at a line after it. -/
def lineToAddrFromMap (line : Nat) (map : LineMap) : Option Nat :=
  match map.lineToAddr.lookup line with
  | some addr => some addr
  | none => (map.lineToAddr.foldl (nearerLine line) none).map Prod.snd

/-- Count the lines that emit an instruction up to `line`; `number` is the line at hand. -/
def instrIndexFrom (emits : List Char → Bool) (line : Nat) :
    Nat → Nat → List (List Char) → Option Nat
  | _, _, [] => none
  | number, idx, text :: lines =>
      if emits text = false then instrIndexFrom emits line (number + 1) idx lines
      else if number = line then some idx
      else instrIndexFrom emits line (number + 1) (idx + 1) lines

/-- The instruction index a line holds; `emits` says whether a line, its comment stripped,
emits an instruction. -/
def sourceLineToInstrIndex (emits : List Char → Bool) (line : Nat) (source : List Char) :
    Option Nat :=
  instrIndexFrom emits line 1 0 (source.splitOn '\n')

/-- What an assembly hands the re-key: the source it read and the line map it made. -/
structure Assembly where
  source : List Char
  map : LineMap
deriving DecidableEq, Repr

/-- The address a line's breakpoint stops at. -/
def Assembly.place (emits : List Char → Bool) (codeBase : Nat) (a : Assembly) (line : Nat) :
    Option Nat :=
  if a.map.isEmpty then
    (sourceLineToInstrIndex emits line a.source).map fun idx => codeBase + idx * 4
  else lineToAddrFromMap line a.map

/-- A set of lines, in the order they came. -/
abbrev Lines := List Nat

def Lines.add (lines : Lines) (line : Nat) : Lines :=
  if line ∈ lines then lines else lines ++ [line]

def Lines.delete (lines : Lines) (line : Nat) : Lines := lines.filter (· ≠ line)

def Lines.renumber (remap : Nat → Option Nat) (lines : Lines) : Lines :=
  (lines.filterMap remap).foldl Lines.add []

/-- The lines at each armed address. -/
abbrev KeyedLines := Nat → Option Lines

/-- The gutter dots, the lines at each key, and the CPU's own set as the calls posted so far
leave it; with them what the calls read: the assembly a line is resolved through, whether a
program is loaded, and the re-keys that wait for the CPU to answer. -/
structure State where
  dots : Lines
  byAddr : KeyedLines
  armed : Finset Nat
  assembly : Assembly
  loaded : Bool
  waiting : List Assembly

def initial : State := ⟨[], fun _ => none, ∅, ⟨[], emptyLineMap⟩, false, []⟩

section Calls

variable (emits : List Char → Bool) (codeBase : Nat)

def toggleBreakpoint (st : State) (line : Nat) : State :=
  match st.assembly.place emits codeBase line with
  | none =>
      if st.loaded then st
      else if line ∈ st.dots then { st with dots := st.dots.delete line }
      else { st with dots := st.dots.add line }
  | some addr =>
      let lines := (st.byAddr addr).getD []
      if line ∈ st.dots then
        let left := Lines.delete lines line
        if left = [] then
          -- the CPU's breakpoint goes with the last dot on the instruction
          { st with
            dots := st.dots.delete line
            byAddr := Function.update st.byAddr addr none
            armed := st.armed.erase addr }
        else
          { st with
            dots := st.dots.delete line
            byAddr := Function.update st.byAddr addr (some left) }
      else
        { st with
          dots := st.dots.add line
          byAddr := Function.update st.byAddr addr (some (Lines.add lines line))
          armed := if lines = [] then insert addr st.armed else st.armed }

/-- Renumber the lines without touching the CPU. -/
def remapBreakpoints (st : State) (remap : Nat → Option Nat) : State :=
  { st with
    byAddr := fun addr => (st.byAddr addr).bind fun lines =>
      if lines.renumber remap = [] then none else some (lines.renumber remap)
    dots := st.dots.renumber remap }

def clearAllBreakpoints (st : State) : State :=
  { st with dots := [], byAddr := fun _ => none, armed := ∅ }

/-- What a re-key has rebuilt so far. -/
structure Rekeyed where
  byAddr : KeyedLines
  survivors : Lines
  dropped : List Nat
  armed : Finset Nat

def Rekeyed.key (place : Nat → Option Nat) (r : Rekeyed) (line : Nat) : Rekeyed :=
  match place line with
  | none => { r with dropped := r.dropped ++ [line] }
  | some addr =>
      let lines := (r.byAddr addr).getD []
      { r with
        survivors := r.survivors.add line
        byAddr := Function.update r.byAddr addr (some (Lines.add lines line))
        armed := if lines = [] then insert addr r.armed else r.armed }

/-- The dots keyed again through an assembly, the CPU's set being `armed`. -/
def rebuild (a : Assembly) (dots : Lines) (armed : Finset Nat) : Rekeyed :=
  dots.foldl (Rekeyed.key (a.place emits codeBase)) ⟨fun _ => none, [], [], armed⟩

/-- A re-key up to where it waits for the CPU's set to be cleared. -/
def rekeyStart (st : State) (a : Assembly) : State :=
  { st with armed := ∅, waiting := st.waiting ++ [a] }

/-- The rest of the re-key that has waited longest, with the lines it dropped. -/
def rekeyFinish (st : State) : State × List Nat :=
  match st.waiting with
  | [] => (st, [])
  | a :: waiting =>
      let r := rebuild emits codeBase a st.dots st.armed
      ({ st with byAddr := r.byAddr, dots := r.survivors, armed := r.armed, waiting := waiting },
        r.dropped.mergeSort)

/-- What happens to the breakpoints, one call at a time. -/
inductive Event
  | toggle (line : Nat)
  | remap (f : Nat → Option Nat)
  | clearAll
  /-- An assembly starts: no program is loaded and the line map is dropped. -/
  | attempt (source : List Char)
  /-- It has succeeded: its line map is in place and the re-key is called. -/
  | rekey (source : List Char) (map : LineMap)
  | answered
  | load

def step (st : State) : Event → State
  | .toggle line => toggleBreakpoint emits codeBase st line
  | .remap f => remapBreakpoints st f
  | .clearAll => clearAllBreakpoints st
  | .attempt source => { st with assembly := ⟨source, emptyLineMap⟩, loaded := false }
  | .rekey source map =>
      rekeyStart { st with assembly := ⟨st.assembly.source, map⟩ } ⟨source, map⟩
  | .answered => (rekeyFinish emits codeBase st).1
  | .load => { st with loaded := true }

def run (st : State) (events : List Event) : State := events.foldl (step emits codeBase) st

end Calls

end Breakpoints

end Playground
