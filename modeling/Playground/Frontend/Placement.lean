/-
The placement walk: each label gets its section's base plus the running offset, each
`name = expr` is folded or set aside, and `.skip` sizes are kept for the emission.
-/
import Playground.Frontend.Equates
import Playground.Frontend.Literals

namespace Playground

/-- The distance between section bases, and the most a section may hold. -/
def sectionWindow : Nat := 1024 * 1024

/-- The walk's state: the layout so far, the offset in the section at hand, and the last
line seen. -/
structure Placing where
  layout : Layout
  offset : Nat
  lastLine : Nat

def Layout.empty : Layout where
  symbols _ := none
  equates _ := []
  labelLines _ := none
  labelOffsets _ := none
  reserveSizes _ _ := none
  textInstrPcs := []
  textLen := 0
  assignments := []

/-- The address `offset` bytes into a section. -/
def SectionKind.addr (kind : SectionKind) (offset : Nat) : Word :=
  kind.defaultBase + BitVec.ofNat 64 offset

def alreadyDefined (name : String) (first : Nat) : String :=
  "symbol `" ++ name ++ "' is already defined\n`" ++ name ++ ":` first appears on line " ++
  toString first ++ ": give this one a different name (labels are file-wide, not " ++
  "per-function)"

def collidesWithConstant (name : String) : String :=
  "label `" ++ name ++ "` collides with the `" ++ name ++
  " = ...` constant defined earlier; rename one of them"

def misaligned (offset : Nat) : String :=
  "this instruction lands at a misaligned address: " ++ toString (offset % 4) ++
  " byte(s) of data sit in .text above it. Move the data to .data or .rodata, or add " ++
  "`.balign 4` between the data and the code"

def grownPastWindow (kind : SectionKind) (offset : Nat) : String :=
  kind.name ++ " has grown past its 1 MiB window (" ++ toString offset ++
  " bytes so far) and would overlap the next section's addresses. Shrink the data or " ++
  ".skip reservations (check any `NAME = ...` size for a typo)"

namespace Placing

/-- The words an instruction takes: two for `ldr reg, label`. -/
def instructionSize (tokens : List Token) : Nat :=
  if (extractLdrLabelLoad tokens).isSome then 8 else 4

def placeLabel (kind : SectionKind) (p : Placing) (name : String) (line : Nat) :
    Except EmuError Placing :=
  match p.layout.labelLines name with
  | some first => .error (.assemblyError line (alreadyDefined name first))
  | none =>
      if (p.layout.symbols name).isSome then
        .error (.assemblyError line (collidesWithConstant name))
      else .ok { p with
        lastLine := line
        layout := { p.layout with
          labelLines := Function.update p.layout.labelLines name (some line)
          symbols := Function.update p.layout.symbols name (some (kind.addr p.offset))
          labelOffsets := Function.update p.layout.labelOffsets name
            (some (BitVec.ofNat 64 p.offset)) } }

/-- An equate is folded when it already evaluates, and set aside otherwise. -/
def placeEquate (kind : SectionKind) (p : Placing) (name : String) (body : EquateBody)
    (line : Nat) : Except EmuError Placing :=
  match p.layout.labelLines name with
  | some first => .error (.assemblyError line (collidesWithLabel name first))
  | none =>
      let a : Assignment := ⟨name, body, kind.addr p.offset, line⟩
      match tryEvaluateAt a p.layout.toScope with
      | some v => .ok { p with
          lastLine := line
          layout := { p.layout with toScope := p.layout.toScope.recordEquate name line v } }
      | none => .ok { p with
          lastLine := line
          layout := { p.layout with assignments := p.layout.assignments ++ [a] } }

def placeInstruction (kind : SectionKind) (p : Placing) (tokens : List Token) (line : Nat) :
    Except EmuError Placing :=
  if kind = .text ∧ p.offset % 4 ≠ 0 then
    .error (.assemblyError line (misaligned p.offset))
  else .ok { p with
    lastLine := line
    offset := p.offset + instructionSize tokens
    layout := { p.layout with
      textInstrPcs := if kind = .text then p.layout.textInstrPcs ++ [kind.addr p.offset]
        else p.layout.textInstrPcs } }

/-- A `.skip` whose size is an expression is sized against the symbols so far. -/
def placeReserve (kind : SectionKind) (idx : Nat) (p : Placing) (tokens : List Token)
    (line : Nat) : Except EmuError Placing := do
  let value ← evaluate tokens (fun name => p.layout.symbolAt name line) (kind.addr p.offset) line
  if value.toInt < 0 then
    .error (.assemblyError line ".skip needs a non-negative byte count")
  else return { p with
    lastLine := line
    offset := saturatingAdd p.offset value.toNat
    layout := { p.layout with
      reserveSizes := Function.update p.layout.reserveSizes kind
        (Function.update (p.layout.reserveSizes kind) idx (some value.toNat)) } }

def placeItem (kind : SectionKind) (idx : Nat) (p : Placing) : Item → Except EmuError Placing
  | .label name line => placeLabel kind p name line
  | .bytes bytes => .ok { p with offset := p.offset + bytes.length }
  | .reserve n => .ok { p with offset := saturatingAdd p.offset n }
  | .alignToBytes bytes maxSkip =>
      .ok { p with offset := p.offset + alignPadding p.offset bytes maxSkip }
  | .symbolAssignment name body line => placeEquate kind p name body line
  | .instruction tokens line => placeInstruction kind p tokens line
  | .dataExprs exprs width line =>
      .ok { p with lastLine := line, offset := p.offset + exprs.length * width }
  | .reserveExpr tokens line => placeReserve kind idx p tokens line

/-- One item, and the window check after it.  A folded or deferred equate skips the
check, which its unchanged offset has passed. -/
def placeChecked (kind : SectionKind) (idx : Nat) (p : Placing) (item : Item) :
    Except EmuError Placing := do
  let p ← placeItem kind idx p item
  if sectionWindow < p.offset then
    .error (.assemblyError p.lastLine (grownPastWindow kind p.offset))
  else return p

def placeItems (kind : SectionKind) : Nat → Placing → List Item → Except EmuError Placing
  | _, p, [] => .ok p
  | idx, p, item :: items => do
      let p ← placeChecked kind idx p item
      placeItems kind (idx + 1) p items

end Placing

/-- One section: its items, from offset zero. -/
def placeSection (layout : Layout) (s : Section) : Except EmuError Layout := do
  let p ← Placing.placeItems s.kind 0 ⟨layout, 0, 0⟩ s.items
  return if s.kind = .text then { p.layout with textLen := p.offset } else p.layout

def placeSections : Layout → List Section → Except EmuError Layout
  | layout, [] => .ok layout
  | layout, s :: sections => do
      let layout ← placeSection layout s
      placeSections layout sections

/-- Give every label an address, fold the equates that already evaluate and size every
section. -/
def collectAndPlace (program : Program) : Except EmuError Layout :=
  placeSections Layout.empty program.sections

end Playground
