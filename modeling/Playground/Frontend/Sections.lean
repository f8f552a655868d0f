/-
What the parser hands the linker: tokens, the items of each section in source
order, and the program they make up.
-/
import Playground.Machine.Registers

namespace Playground

/-- What one token is.  Integers are `i64` and floats `f64`, both as their bits;
a character is its byte. -/
inductive TokenKind
  | ident (name : String)
  | directiveIdent (name : String)
  | intLit (value : BitVec 64)
  | floatLit (bits : BitVec 64)
  | charLit (value : BitVec 32)
  | stringLit (bytes : List Byte)
  | comma
  | plus
  | minus
  | star
  | slash
  | percent
  | amp
  | pipe
  | caret
  | tilde
  | bang
  | lShift
  | rShift
  | lParen
  | rParen
  | lBracket
  | rBracket
  | lBrace
  | rBrace
  | dot
  | colon
  | equals
  | hash
deriving DecidableEq, Repr

/-- A single token with its source location. -/
structure Token where
  kind : TokenKind
  line : Nat
  col : Nat
deriving DecidableEq, Repr

/-- Which section an item lives in. -/
inductive SectionKind
  | text
  | data
  | rodata
  | bss
deriving DecidableEq, Repr

namespace SectionKind

def defaultBase : SectionKind → Word
  | .text => 0x400000
  | .rodata => 0x500000
  | .data => 0x600000
  | .bss => 0x700000

def name : SectionKind → String
  | .text => ".text"
  | .rodata => ".rodata"
  | .data => ".data"
  | .bss => ".bss"

end SectionKind

/-- The text of an equate's expression, which stands on one line. -/
abbrev EquateBody := { text : String // '\n' ∉ text.toList }

/-- One thing a section contains.  Instructions keep their tokens: their encoding
depends on the symbol table the linker builds. -/
inductive Item
  | bytes (bytes : List Byte)
  | reserve (n : Nat)
  | alignToBytes (bytes : Nat) (maxSkip : Option Nat)
  | label (name : String) (originalLine : Nat)
  | symbolAssignment (name : String) (body : EquateBody) (originalLine : Nat)
  | instruction (tokens : List Token) (originalLine : Nat)
  | reserveExpr (tokens : List Token) (originalLine : Nat)
  | dataExprs (exprs : List (List Token)) (width : Nat) (originalLine : Nat)
deriving DecidableEq, Repr

/-- The padding an `alignToBytes` item adds at `offset`: up to the next multiple, or
nothing when that is more than `maxSkip`. -/
def alignPadding (offset bytes : Nat) (maxSkip : Option Nat) : Nat :=
  let pad := if bytes = 0 then 0 else (bytes - offset % bytes) % bytes
  if maxSkip.any fun max => decide (max < pad) then 0 else pad

/-- A section and its items, in source order. -/
structure Section where
  kind : SectionKind
  items : List Item

/-- The parser's output, as far as the loader and the linker read it. -/
structure Program where
  sections : List Section
  globals : List String
  expandedSource : String
  /-- `section_or_insert` keeps one section per kind. -/
  kinds_nodup : (sections.map Section.kind).Nodup

/-- Name to value: labels, host stubs, trampolines and equates. -/
abbrev SymbolTable := String → Option Word

/-- What the linker hands the loader: the `(address, bytes)` writes in order, and
where things ended up. -/
structure LinkedImage where
  writes : List (Word × List Byte)
  entryPoint : Word
  instructionCount : Nat
  textBase : Word
  textEnd : Word
  symbols : SymbolTable
  lineMap : List (Word × Nat)
  trampolineBase : Word
  trampolineNames : List String
  dataSpans : List (Word × Word)

end Playground
