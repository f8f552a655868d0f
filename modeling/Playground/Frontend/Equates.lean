/-
Equates: `name = expr` definitions, each with the line it stands on.  A use takes the
nearest definition above it, or the first when it stands above them all.  Definitions
that name something placed later wait in a list that `resolveEquates` works off.
-/
import Playground.Frontend.Expr

namespace Playground

/-- Every value an equate takes, by name, as `(line, value)` pairs in the order they
were recorded.  A name with no entry has none. -/
abbrev EquateDefs := String → List (Nat × Word)

/-- The symbols a line can name: the flat table, and the equates' values by line. -/
structure Scope where
  symbols : SymbolTable
  equates : EquateDefs

namespace Scope

/-- The definition at or above `line` that stands nearest; of several on one line, the
one recorded last. -/
def nearestAbove (line : Nat) (defs : List (Nat × Word)) : Option (Nat × Word) :=
  defs.foldl (fun best d =>
    if d.1 ≤ line ∧ best.all (fun chosen => decide (chosen.1 ≤ d.1)) then some d else best) none

/-- The definition with the least line, the one recorded first of several. -/
def firstDefinition : List (Nat × Word) → Option (Nat × Word)
  | [] => none
  | d :: defs => some (defs.foldl (fun least d => if d.1 < least.1 then d else least) d)

/-- The value `name` holds at `line`. -/
def symbolAt (s : Scope) (name : String) (line : Nat) : Option Word :=
  match s.equates name with
  | [] => s.symbols name
  | defs =>
      match nearestAbove line defs with
      | some d => some d.2
      | none => (firstDefinition defs).map Prod.snd

/-- Record one resolved definition.  The flat table keeps the first value. -/
def recordEquate (s : Scope) (name : String) (line : Nat) (value : Word) : Scope where
  symbols := Function.update s.symbols name (some ((s.symbols name).getD value))
  equates := Function.update s.equates name (s.equates name ++ [(line, value)])

/-- Pin each equate's flat value to its first definition by line. -/
def pinFirst (s : Scope) : Scope where
  symbols name := match firstDefinition (s.equates name) with
    | some d => some d.2
    | none => s.symbols name
  equates := s.equates

end Scope

/-- A `name = expr` still waiting on a symbol, with the address its line sits at. -/
structure Assignment where
  name : String
  body : EquateBody
  here : Word
  line : Nat
deriving DecidableEq

def Assignment.evaluateAt (a : Assignment) (s : Scope) : Except EmuError Word := do
  let tokens ← lex a.body.val a.line
  evaluate tokens (fun name => s.symbolAt name a.line) a.here a.line

def tryEvaluateAt (a : Assignment) (s : Scope) : Option Word :=
  (a.evaluateAt s).toOption

/-- Where everything landed, worked out before a single byte is emitted. -/
structure Layout extends Scope where
  labelLines : String → Option Nat
  labelOffsets : SymbolTable
  reserveSizes : SectionKind → Nat → Option Nat
  textInstrPcs : List Word
  textLen : Nat
  assignments : List Assignment

def collidesWithLabel (name : String) (first : Nat) : String :=
  "`" ++ name ++ " = ...` collides with the label `" ++ name ++ ":` on line " ++
  toString first ++ "; rename one of them"

/-- One pass over the pending assignments: each that evaluates is recorded, the rest
stay.  The flag says whether any did. -/
def resolvePass (labelLines : String → Option Nat) :
    Scope → List Assignment → Except EmuError (Scope × List Assignment × Bool)
  | s, [] => .ok (s, [], false)
  | s, a :: rest =>
      match labelLines a.name with
      | some first => .error (.assemblyError a.line (collidesWithLabel a.name first))
      | none =>
          match tryEvaluateAt a s with
          | some v => do
              let (s, remaining, _) ← resolvePass labelLines (s.recordEquate a.name a.line v) rest
              return (s, remaining, true)
          | none => do
              let (s, remaining, changed) ← resolvePass labelLines s rest
              return (s, a :: remaining, changed)

/-- At most `n` passes, up to the first that changes nothing. -/
def resolveRounds (labelLines : String → Option Nat) :
    Nat → Scope → List Assignment → Except EmuError (Scope × List Assignment)
  | 0, s, pending => .ok (s, pending)
  | n + 1, s, pending => do
      let (s, remaining, changed) ← resolvePass labelLines s pending
      if changed then resolveRounds labelLines n s remaining else return (s, remaining)

def maxRounds : Nat := 16

/-- Evaluate every pending assignment, in rounds.  Of those left over, the first is
evaluated again for its error. -/
def resolveEquates (layout : Layout) : Except EmuError Layout := do
  let (s, remaining) ← resolveRounds layout.labelLines maxRounds layout.toScope
    layout.assignments
  match remaining with
  | [] => pure ()
  | a :: _ =>
      let _ ← a.evaluateAt s
      pure ()
  return { layout with toScope := s.pinFirst, assignments := remaining }

end Playground
