/-
Rewriting an instruction's operands for the encoder: each operand that is a constant
expression becomes a plain number.  Text outside quotes is ASCII here, which the lexer
has seen to.
-/
import Playground.Frontend.Equates
import Playground.Frontend.Literals

namespace Playground

/-- The symbols a line of `.text` is lowered against. -/
structure LineScope extends Scope where
  labelOffsets : SymbolTable
  line : Nat

def undefinedLabel (line : Nat) (target : String) : EmuError :=
  .assemblyError line ("undefined reference to `" ++ target ++ "'\nno line defines `" ++
    target ++ ":`: check the spelling, and check that the label line ends with a `:`")

/-- The name whose lookup failed, when that is what an error says. -/
def missingSymbol (e : EmuError) (tokens : List Token) : Option String :=
  tokens.findSome? fun t =>
    match t.kind with
    | .ident name => if e = .parseError t.line (Expr.unknownSymbol name) then some name else none
    | .directiveIdent name =>
        if e = .parseError t.line (Expr.unknownSymbol name) then some name else none
    | _ => none

namespace Operands

/-- The pieces between top-level commas.  A character literal's comma or bracket is a
value, not syntax; `skip` characters belong to one. -/
def splitFrom : Nat → Int → List Char → List Char → List (List Char)
  | _, _, piece, [] => [piece.reverse]
  | skip + 1, depth, piece, c :: rest => splitFrom skip depth (c :: piece) rest
  | 0, depth, piece, c :: rest =>
      let literal := if c = '\'' then
          match Lexer.parseCharLiteral (c :: rest) 0 with
          | .ok (_, used) => used
          | .error _ => 0
        else 0
      if literal ≠ 0 then splitFrom (literal - 1) depth (c :: piece) rest
      else if c = '[' ∨ c = '(' ∨ c = '\x7b' then splitFrom 0 (depth + 1) (c :: piece) rest
      else if c = ']' ∨ c = ')' ∨ c = '\x7d' then splitFrom 0 (depth - 1) (c :: piece) rest
      else if c = ',' ∧ depth = 0 then piece.reverse :: splitFrom 0 depth [] rest
      else splitFrom 0 depth (c :: piece) rest

def splitTopLevelCommas (s : List Char) : List (List Char) := splitFrom 0 0 [] s

/-- What stands inside the bracket `s` opens with, and from its closing one on. -/
def matchingBracketFrom : Int → List Char → List Char → Option (List Char × List Char)
  | _, _, [] => none
  | depth, seen, c :: rest =>
      let depth := if c = '[' then depth + 1 else if c = ']' then depth - 1 else depth
      if c = ']' ∧ depth = 0 then some (seen.reverse.drop 1, c :: rest)
      else matchingBracketFrom depth (c :: seen) rest

def findMatchingBracket (s : List Char) : Option (List Char × List Char) :=
  matchingBracketFrom 0 [] s

/-- A plain label name with no expression around it. -/
def isBareIdentifier (s : List Char) : Bool :=
  !s.isEmpty && s.all fun c => c.isAlphanum || c = '_' || c = '.' || c = '$'

def isPlainIdent (s : List Char) : Bool :=
  match s with
  | [] => false
  | c :: rest =>
      (c.isAlpha || c = '_' || c = '.') &&
        rest.all fun c => c.isAlphanum || c = '_' || c = '.'

/-- Whether an operand is worth evaluating: it has an operator, or is a known name. -/
def looksLikeExpression (body : List Char) (symbols : SymbolTable) : Bool :=
  let operators := ['+', '-', '*', '/', '&', '|', '^', '~', '(', ')', '.', '<', '>', '%']
  if body.any fun c => decide (c ∈ operators) then true
  else if isRegisterOrShiftKeyword body then false
  else isPlainIdent body && (symbols (String.ofList body)).isSome

/-- The words of a text, split at white space. -/
def firstWord (s : List Char) : List Char := (trimStart s).takeWhile fun c => !isSpace c

def conditions : List (List Char) :=
  [['e', 'q'], ['n', 'e'], ['h', 's'], ['c', 's'], ['l', 'o'], ['c', 'c'], ['m', 'i'],
    ['p', 'l'], ['v', 's'], ['v', 'c'], ['h', 'i'], ['l', 's'], ['g', 'e'], ['l', 't'],
    ['g', 't'], ['l', 'e'], ['a', 'l']]

def isDotlessBcond (lower : List Char) : Bool :=
  match lower with
  | 'b' :: tail => decide (tail ∈ conditions)
  | _ => false

def isBranchMnemonic (mn : List Char) : Bool :=
  let lower := mn.map Char.toLower
  decide (lower ∈ [['b'], ['b', 'l'], ['c', 'b', 'z'], ['c', 'b', 'n', 'z'], ['t', 'b', 'z'],
    ['t', 'b', 'n', 'z']]) || (['b', '.'] : List Char).isPrefixOf lower || isDotlessBcond lower

/-- How deep brackets may nest before an operand is refused. -/
def maxOperandDepth : Nat := 32

section
variable (scope : LineScope) (pc : Word)

/-- Evaluate a value the linker fills in, against the whole table.  A name nothing
defines opens the error the way `ld` words it. -/
def evaluateLinked (tokens : List Token) (s : Scope) (here : Word) (line : Nat) :
    Except EmuError Word :=
  match evaluate tokens (fun name => s.symbolAt name line) here line with
  | .ok v => .ok v
  | .error e =>
      match missingSymbol e tokens with
      | some name => .error (undefinedLabel line name)
      | none => .error e

/-- A relocatable expression as an absolute address. -/
def resolveRelocatableOperand (text : List Char) : Except EmuError Word := do
  let tokens ← lex (String.ofList text) scope.line
  evaluateLinked tokens scope.toScope pc scope.line

/-- Evaluate an operand that looked like an expression; `none` hands its text to the
encoder.  A label names its offset in its section here. -/
def tryEvaluateOperand (body : List Char) : Except EmuError (Option Word) :=
  if isRegisterOrShiftKeyword (firstWord body) then .ok none
  else
    match lex (String.ofList body) scope.line with
    | .error _ => .ok none
    | .ok tokens =>
        if tokens.any fun t => match t.kind with | .floatLit _ => true | _ => false then .ok none
        else
          (evaluate tokens (fun name =>
            match scope.labelOffsets name with
            | some offset => some offset
            | none => scope.symbolAt name scope.line) pc scope.line).map some

/-- `:lo12:sym`, the low twelve bits of an address. -/
def lowTwelve (name : List Char) : Except EmuError (List Char) :=
  if isBareIdentifier name then
    match scope.symbols (String.ofList name) with
    | some addr => .ok (Nat.toDigits 10 (addr &&& 0xFFF).toNat)
    | none => .error (undefinedLabel scope.line (String.ofList name))
  else do
    let value ← resolveRelocatableOperand scope pc name
    return Nat.toDigits 10 (value &&& 0xFFF).toNat

def lo12Symbol (unhashed : List Char) : Option (List Char) :=
  match unhashed with
  | ':' :: 'l' :: 'o' :: '1' :: '2' :: ':' :: sym => some (trim sym)
  | ':' :: 'L' :: 'O' :: '1' :: '2' :: ':' :: sym => some (trim sym)
  | _ => none

def unbalancedBracket : String :=
  "unbalanced bracket in the address: count the `[` and `]` on this line. Pre-indexed " ++
  "forms end `]!`, and post-indexed forms close the `]` before the comma, as in `[x20], 8`"

def nestsDeeper : String :=
  "addressing operand nests deeper than " ++ toString maxOperandDepth ++ " brackets"

def unhash (s : List Char) : List Char :=
  match s with
  | '#' :: rest => rest
  | s => s

/-- An operand with no bracket: a number where it is an expression. -/
def rewritePlain (trimmed : List Char) : Except EmuError (List Char) :=
  let body := trim (unhash trimmed)
  if looksLikeExpression body scope.symbols then do
    match ← tryEvaluateOperand scope pc body with
    | some value => return (i64Text value).toList
    | none => return trimmed
  else .ok trimmed

def joinOperands : List (List Char) → List Char
  | [] => []
  | [s] => s
  | s :: rest => s ++ ',' :: ' ' :: joinOperands rest

/-- Rewrite one operand; `depth` levels of brackets are left. -/
def rewriteOperand : Nat → List Char → Except EmuError (List Char)
  | depth, s =>
      let trimmed := trim s
      if trimmed.isEmpty then .ok []
      else
        match lo12Symbol (trimStart (unhash trimmed)) with
        | some name => lowTwelve scope pc name
        | none =>
            match trimmed with
            | '\x7b' :: _ => .ok trimmed
            | '[' :: _ =>
                match findMatchingBracket trimmed with
                | none => .error (.assemblyError scope.line unbalancedBracket)
                | some (inside, trailer) =>
                    match depth with
                    | 0 => .error (.assemblyError scope.line nestsDeeper)
                    | depth + 1 => do
                        let parts ← (splitTopLevelCommas inside).mapM fun seg =>
                          rewriteOperand depth (trim seg)
                        return '[' :: (joinOperands parts ++ trailer)
            | trimmed => rewritePlain scope pc trimmed

def rewriteOperandList (s : List Char) : Except EmuError (List Char) := do
  let parts ← (splitTopLevelCommas s).mapM fun seg =>
    rewriteOperand scope pc maxOperandDepth (trim seg)
  return joinOperands parts

/-- What stands before and after the last comma. -/
def rsplitComma (s : List Char) : Option (List Char × List Char) :=
  if ',' ∈ s then
    let last := (s.reverse.takeWhile (· ≠ ',')).reverse
    some (s.take (s.length - last.length - 1), last)
  else none

/-- Rewrite a line for the encoder.  Branches keep their label, and so do `adr` and
`adrp` when the operand is a bare label. -/
def lowerOperands (line : List Char) : Except EmuError (List Char) :=
  let trimmed := trim line
  let mnemonic := trimmed.takeWhile fun c => !isSpace c
  let tail := trimStart (trimmed.dropWhile fun c => !isSpace c)
  let lower := mnemonic.map Char.toLower
  if tail.isEmpty then .ok mnemonic
  else if isBranchMnemonic mnemonic then .ok (mnemonic ++ ' ' :: tail)
  else if lower = ['a', 'd', 'r'] ∨ lower = ['a', 'd', 'r', 'p'] then
    match rsplitComma tail with
    | none => .ok (mnemonic ++ ' ' :: tail)
    | some (head, last) =>
        let last := trim last
        if isBareIdentifier last then .ok (mnemonic ++ ' ' :: tail)
        else do
          let value ← resolveRelocatableOperand scope pc last
          return mnemonic ++ ' ' :: (head ++ ',' :: ' ' :: Nat.toDigits 10 value.toNat)
  else do
    let rewritten ← rewriteOperandList scope pc tail
    return mnemonic ++ ' ' :: rewritten

end

/-- A line up to its comment; a `;` or `//` inside a literal is content. -/
def stripCommentFrom (inString inChar escape : Bool) : List Char → List Char
  | [] => []
  | c :: rest =>
      if escape then c :: stripCommentFrom inString inChar false rest
      else if c = '\\' ∧ (inString || inChar) then
        c :: stripCommentFrom inString inChar true rest
      else if inString then c :: stripCommentFrom (c ≠ '"') inChar false rest
      else if inChar then c :: stripCommentFrom inString (c ≠ '\'') false rest
      else if c = '"' then c :: stripCommentFrom true false false rest
      else if c = '\'' then c :: stripCommentFrom false true false rest
      else if c = '/' ∧ rest.head? = some '/' then []
      else if c = ';' then []
      else c :: stripCommentFrom false false false rest

/-- The line after its leading labels; `n` bounds their number. -/
def dropLabels : Nat → List Char → List Char
  | 0, s => s
  | n + 1, s =>
      let isName (c : Char) : Bool := c.isAlphanum || c = '_' || c = '.' || c = '$'
      match s.takeWhile isName, s.dropWhile isName with
      | _ :: _, ':' :: rest => dropLabels n (trimStart rest)
      | _, _ => s

def stripLeadingLabels (line : List Char) : List Char :=
  trim (stripCommentFrom false false false (dropLabels line.length (trimStart line)))

/-- `str::lines`: the text between newlines, with a carriage return before one dropped. -/
def splitLines (text : List Char) : List (List Char) :=
  let pieces := text.splitOn '\n'
  let ended := pieces.dropLast.map fun piece =>
    if piece.getLast? = some '\r' then piece.dropLast else piece
  match pieces.getLast? with
  | some (c :: rest) => ended ++ [c :: rest]
  | _ => ended

end Operands

end Playground
