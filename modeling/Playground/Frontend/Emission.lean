/-
The emission walk: bytes for every section in the layout placement worked out, then the
trampolines and the literal pool.  Ordinary instructions go through the line encoder,
`encodeLine`, as text.
-/
import Playground.Frontend.Pool
import Playground.Machine.Host

namespace Playground

/-- The encoder of one line: its text, the address it goes to, the symbols and the
line's number. -/
abbrev EncodeLine := List Char → Word → SymbolTable → Nat → Except EmuError (BitVec 32)

/-- An LDR (literal): the offset is a multiple of four that fits nineteen bits scaled by
four. -/
def encodeLdrLiteral (sf : Bool) (rt : Nat) (offsetBytes : Int) :
    Except EmuError (BitVec 32) :=
  if 31 < rt then .error (.linkError 0 ("invalid register x" ++ toString rt))
  else if offsetBytes % 4 ≠ 0 then
    .error (.linkError 0 ("ldr literal offset " ++ toString offsetBytes ++
      " is not a multiple of 4"))
  else
    let imm19 := offsetBytes / 4
    if imm19 < -2 ^ 18 ∨ 2 ^ 18 ≤ imm19 then
      .error (.linkError 0 ("ldr literal offset " ++ toString offsetBytes ++
        " out of range for imm19"))
    else
      .ok (0x18000000 ||| (if sf then 0x40000000 else 0) |||
        ((BitVec.ofInt 32 imm19 &&& 0x7FFFF) <<< 5) ||| (BitVec.ofNat 32 rt &&& 0x1F))

/-- The signed distance between two addresses. -/
def distance (target pc : Word) : Int := target.toInt - pc.toInt

def nopWord : BitVec 32 := 0xD503201F

def brX16 : BitVec 32 := 0xD61F0200

def wordBytes (word : BitVec 32) : List Byte := Memory.leBytes 4 word.toNat

/-- What a run of items gives: its writes, its address-to-line entries, the number of
instruction words, and the offset it ends at. -/
structure Emitted where
  writes : List (Word × List Byte)
  lineMap : List (Word × Nat)
  instructionCount : Nat
  offset : Nat

namespace Emitted

/-- Nothing but a hop to `offset`. -/
def skip (offset : Nat) : Emitted := ⟨[], [], 0, offset⟩

/-- One write of `bytes` at `offset` of a section. -/
def data (kind : SectionKind) (offset : Nat) (bytes : List Byte) : Emitted :=
  ⟨[(kind.addr offset, bytes)], [], 0, offset + bytes.length⟩

/-- A run followed by the next. -/
def followedBy (first rest : Emitted) : Emitted where
  writes := first.writes ++ rest.writes
  lineMap := first.lineMap ++ rest.lineMap
  instructionCount := first.instructionCount + rest.instructionCount
  offset := rest.offset

end Emitted

def notInPool (text : String) : String :=
  "`" ++ text ++ "` could not be placed in the literal pool: the pool only covers code in " ++
  "`.text`, so move this instruction under a `.text` directive"

def instructionInSection (kind : SectionKind) : String :=
  "instruction in the " ++ kind.name ++ " section. Add a `.text` directive above your code"

def nothingToAssemble : String :=
  "nothing to assemble on this line: a label needs a `:` after it, and an instruction " ++
  "needs a mnemonic"

def blTakesPlainLabel : String :=
  "bl takes a plain label, with no `+` or `-` offset; branch to the label directly"

def noInstructions : String :=
  "the program has no instructions. If a comment or a missing .text swallowed your code, " ++
  "put it back under `.text`"

section
variable (encodeLine : EncodeLine) (program : Program) (layout : Layout) (pool : Pool)

namespace Emit

/-- The padding of an alignment: NOPs in `.text`, so that falling through it runs. -/
def emitAlign (kind : SectionKind) (offset bytes : Nat) (maxSkip : Option Nat) : Emitted :=
  let pad := alignPadding offset bytes maxSkip
  let words := if kind = .text ∧ offset % 4 = 0 then pad / 4 else 0
  { Emitted.skip (offset + pad) with
    writes := if 0 < words then
        [(kind.addr offset, (List.replicate words (wordBytes nopWord)).flatten)]
      else [] }

/-- The bytes of a data directive whose values name symbols.  `.` is the slot's own
address. -/
def dataBytes (width line : Nat) : Word → List (List Token) → Except EmuError (List Byte)
  | _, [] => .ok []
  | here, group :: groups => do
      let value ← Operands.evaluateLinked group layout.toScope here line
      let rest ← dataBytes width line (here + BitVec.ofNat 64 width) groups
      return Memory.leBytes width value.toNat ++ rest

/-- The LDR (literal) that loads a pool slot from `pc`. -/
def loadSlot (sf : Bool) (rt : Nat) (key : PoolKey) (pc : Word) (line : Nat) :
    Except EmuError (BitVec 32) :=
  match pool.slots key with
  | none => .error (.linkError line (notInPool key.1))
  | some slot => encodeLdrLiteral sf rt (distance (pool.base + BitVec.ofNat 64 slot) pc)

/-- The register an `ldr reg, label` holds the address in. -/
def addressRegister (reg : String) (line : Nat) : Except EmuError Nat :=
  match parseLdrDest reg with
  | some (.gpr idx) => .ok idx
  | some .fp => .ok 16
  | none => .error (.assemblyError line ("internal: ldr destination `" ++ reg ++
      "` was recognized but did not parse"))

/-- `ldr reg, label`: the address from the pool, then a load through it. -/
def emitLabelLoad (reg text : String) (line offset : Nat) : Except EmuError Emitted := do
  let pc := SectionKind.text.addr offset
  let rt ← addressRegister reg line
  let word1 ← loadSlot pool true rt (text, none) pc line
  let word2 ← encodeLine ("ldr " ++ reg ++ ", [x" ++ toString rt ++ "]").toList (pc + 4)
    layout.symbols line
  return {
    writes := [(pc, wordBytes word1), (pc + 4, wordBytes word2)]
    lineMap := [(pc, line), (pc + 4, line)]
    instructionCount := 2
    offset := offset + 8 }

/-- The text of a line as the encoder gets it: calls to the host go to a trampoline, and
constant operands are numbers. -/
def lineText (tokens : List Token) (line : Nat) (pc : Word) : Except EmuError (List Char) :=
  let (redirectedTokens, redirected) :=
    redirectBlToTrampolineTokens tokens fun name => (pool.trampAddr name).isSome
  let raw := ((Operands.splitLines program.expandedSource.toList)[
    (tokens.head?.map Token.line).getD 0 - 1]?).getD []
  let stripped := Operands.stripLeadingLabels raw
  if stripped.isEmpty then .error (.assemblyError line nothingToAssemble)
  else
    match extractBlTarget redirectedTokens with
    | some name =>
        if 2 < redirectedTokens.length then .error (.assemblyError line blTakesPlainLabel)
        else .ok ('b' :: 'l' :: ' ' :: name.toList)
    | none =>
        match (extractCallTarget redirectedTokens true).filter fun _ =>
            redirected && redirectedTokens.length = 2 with
        | some name => .ok ('b' :: ' ' :: name.toList)
        | none => Operands.lowerOperands ⟨layout.toScope, layout.labelOffsets, line⟩
            (pc - SectionKind.text.defaultBase) stripped

def instructionWord (tokens : List Token) (line : Nat) (pc : Word) :
    Except EmuError (BitVec 32) :=
  match extractLdrEqOperand tokens with
  | some (text, dotRelative) => do
      let (rt, sf) ← parseLdrEqRt tokens line
      loadSlot pool sf rt (text, if dotRelative then some pc else none) pc line
  | none => do
      let text ← lineText program layout pool tokens line pc
      encodeLine text pc layout.symbols line

def emitInstruction (tokens : List Token) (line offset : Nat) : Except EmuError Emitted :=
  match extractLdrLabelLoad tokens with
  | some (reg, text) => emitLabelLoad encodeLine layout pool reg text line offset
  | none => do
      let pc := SectionKind.text.addr offset
      let word ← instructionWord encodeLine program layout pool tokens line pc
      return {
        writes := [(pc, wordBytes word)]
        lineMap := [(pc, line)]
        instructionCount := 1
        offset := offset + 4 }

def emitItem (kind : SectionKind) (idx offset : Nat) : Item → Except EmuError Emitted
  | .label _ _ => .ok (.skip offset)
  | .bytes bytes => .ok (.data kind offset bytes)
  | .reserve n => .ok (.skip (offset + n))
  | .reserveExpr _ _ => .ok (.skip (offset + (layout.reserveSizes kind idx).getD 0))
  | .alignToBytes bytes maxSkip => .ok (emitAlign kind offset bytes maxSkip)
  | .symbolAssignment _ _ _ => .ok (.skip offset)
  | .dataExprs exprs width line => do
      let bytes ← dataBytes layout width line (kind.addr offset) exprs
      return .data kind offset bytes
  | .instruction tokens line =>
      if kind ≠ .text then .error (.assemblyError line (instructionInSection kind))
      else emitInstruction encodeLine program layout pool tokens line offset

/-- The items of a section in order, from index `idx` and `offset` on. -/
def emitItems (kind : SectionKind) : Nat → Nat → List Item → Except EmuError Emitted
  | _, offset, [] => .ok (.skip offset)
  | idx, offset, item :: items => do
      let first ← emitItem encodeLine program layout pool kind idx offset item
      let rest ← emitItems kind (idx + 1) first.offset items
      return first.followedBy rest

end Emit

/-- What emission gives: the byte writes in order, the address-to-line map, the number of
instruction words, and each data section's span. -/
structure Emission where
  writes : List (Word × List Byte)
  lineMap : List (Word × Nat)
  instructionCount : Nat
  dataSpans : List (Word × Word)

namespace Emission

/-- One section's run, in front of what follows. -/
def addSection (s : Section) (run : Emitted) (e : Emission) : Emission where
  writes := run.writes ++ e.writes
  lineMap := run.lineMap ++ e.lineMap
  instructionCount := run.instructionCount + e.instructionCount
  dataSpans :=
    if s.kind = .text then e.dataSpans
    else (s.kind.defaultBase, s.kind.addr run.offset) :: e.dataSpans

end Emission

def emitSections : List Section → Except EmuError Emission
  | [] => .ok ⟨[], [], 0, []⟩
  | s :: sections => do
      let run ← Emit.emitItems encodeLine program layout pool s.kind 0 0 s.items
      let rest ← emitSections sections
      return rest.addSection s run

/-- The trampolines: `LDR X16` of the stub's pool slot, then `BR X16`. -/
def trampolineWrites : Nat → List String → Except EmuError (List (Word × List Byte))
  | _, [] => .ok []
  | idx, name :: names => do
      let addr := pool.trampBase + BitVec.ofNat 64 (idx * 8)
      let ldr ← Emit.loadSlot pool true 16 (name, none) addr 0
      let rest ← trampolineWrites (idx + 1) names
      return (addr, wordBytes ldr) :: (addr + 4, wordBytes brX16) :: rest

/-- The words of the literal pool. -/
def poolWrites : Nat → List Word → List (Word × List Byte)
  | _, [] => []
  | idx, value :: values =>
      (pool.base + BitVec.ofNat 64 (idx * 8), Memory.leBytes 8 value.toNat) ::
        poolWrites (idx + 1) values

/-- Bytes for every section, the trampolines and the literal pool. -/
def emitImage : Except EmuError Emission := do
  let e ← emitSections encodeLine program layout pool program.sections
  let trampolines ← trampolineWrites pool 0 pool.trampolines
  if e.instructionCount = 0 then .error (.linkError 0 noInstructions)
  else return { e with writes := e.writes ++ trampolines ++ poolWrites pool 0 pool.values }

end

def undefinedMain (guidance : String) : String :=
  "undefined reference to `main'\n" ++ guidance

def mainNotGlobal : String :=
  "`main:` is here but not global, so the startup code cannot see it: add `.global main` " ++
  "on the line above `main:`"

def mainNotDefined : String :=
  "`.global main` is declared but no line defines the label: add `main:` above main's " ++
  "first instruction"

def noMain : String :=
  "no line defines `main:`, where every program starts: add `.global main` and then " ++
  "`main:` above the first instruction"

/-- The address execution starts at: `main`, which has to be a label and global unless
the program brings its own `_start`. -/
def resolveEntryPoint (program : Program) (layout : Layout) : Except EmuError Word :=
  let isGlobal := decide ("main" ∈ program.globals)
  if (layout.labelLines "_start").isSome then
    .ok ((layout.symbols (if (layout.labelLines "main").isSome then "main" else "_start")).getD 0)
  else
    match layout.labelLines "main" with
    | some line =>
        if isGlobal then .ok ((layout.symbols "main").getD 0)
        else .error (.linkError line (undefinedMain mainNotGlobal))
    | none =>
        .error (.linkError 0 (undefinedMain (if isGlobal then mainNotDefined else noMain)))

/-- The three standard streams, each a symbol for a word the loader writes. -/
def stdioSymbols : SymbolTable := fun name =>
  (["stdin", "stdout", "stderr"].idxOf? name).map fun i => 0x801000 + BitVec.ofNat 64 (i * 8)

/-- Host stubs and the standard streams, where the program has no symbol of that name. -/
def Layout.seedHost (layout : Layout) (host : HostTable) : Layout :=
  { layout with symbols := fun name =>
      ((layout.symbols name).or (host.lookup name)).or (stdioSymbols name) }

/-- The layout every pass after equate resolution reads. -/
def resolveLayout (program : Program) (host : HostTable) : Except EmuError Layout := do
  let layout ← collectAndPlace program
  resolveEquates (layout.seedHost host)

/-- What the passes hand each other: the final layout, the pool, and the bytes. -/
structure Passes where
  layout : Layout
  pool : Pool
  emission : Emission

/-- Placement, equate resolution, pool sizing and emission, in this order. -/
def runPasses (encodeLine : EncodeLine) (host : HostTable) (program : Program) :
    Except EmuError Passes := do
  let resolved ← resolveLayout program host
  let (layout, pool) ← sizeLiteralPool program resolved
  let emission ← emitImage encodeLine program layout pool
  return ⟨layout, pool, emission⟩

def Passes.image (p : Passes) (entryPoint : Word) : LinkedImage where
  writes := p.emission.writes
  entryPoint := entryPoint
  instructionCount := p.emission.instructionCount
  textBase := SectionKind.text.defaultBase
  textEnd := SectionKind.text.addr p.layout.textLen
  symbols := p.layout.symbols
  lineMap := p.emission.lineMap
  trampolineBase := if p.pool.trampolines.isEmpty then 0 else p.pool.trampBase
  trampolineNames := p.pool.trampolines
  dataSpans := p.emission.dataSpans

/-- Assemble and link a parsed program. -/
def link (encodeLine : EncodeLine) (host : HostTable) (program : Program) :
    Except EmuError LinkedImage := do
  let p ← runPasses encodeLine host program
  let entryPoint ← resolveEntryPoint program p.layout
  return p.image entryPoint

end Playground
