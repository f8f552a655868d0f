/-
The m4 passes over raw source: comments out, and one substitution round over a line,
with the size caps that keep a round from running away.
-/
import Playground.Frontend.Operands

namespace Playground

namespace M4

def maxRecursion : Nat := 32

def maxExpandedLineBytes : Nat := 64 * 1024

/-- The cap on everything an expansion writes. -/
def maxExpandedTotalBytes : Nat := 8 * 1024 * 1024

/-- The bodies in effect, by name. -/
abbrev Macros := List Char → Option (List Char)

def Macros.insert (m : Macros) (name body : List Char) : Macros :=
  fun n => if n = name then some body else m n

def Macros.remove (m : Macros) (name : List Char) : Macros :=
  fun n => if n = name then none else m n

/-- Why a substitution round stopped short. -/
inductive Stop
  | cap
  | unclosed
deriving DecidableEq, Repr

def stripComment (line : List Char) : List Char :=
  Operands.stripCommentFrom false false false line

/-- Where a character of the source stands when block comments are looked for. -/
inductive Within
  | code
  | string
  | char
  | block
  | comment
deriving DecidableEq, Repr

def unterminatedBlock : String :=
  "unterminated /* comment: no closing */ before the end of the file"

/-- Blank the block comments of what is left of the source.  `taken` says that the
character at hand went with the one before it, and whether it is kept. -/
def stripBlocksFrom (within : Within) (line opened : Nat) (taken : Option Bool) :
    List Char → Except EmuError (List Char)
  | [] => if within = .block then .error (.preprocError opened unterminatedBlock) else .ok []
  | c :: rest =>
      match taken with
      | some true => (stripBlocksFrom within line opened none rest).map (c :: ·)
      | some false => stripBlocksFrom within line opened none rest
      | none =>
          if c = '\n' then
            (stripBlocksFrom (if within = .block then .block else .code) (line + 1) opened none
              rest).map (c :: ·)
          else
            match within with
            | .block =>
                if c = '*' ∧ rest.head? = some '/' then
                  stripBlocksFrom .code line opened (some false) rest
                else stripBlocksFrom .block line opened none rest
            | .comment => (stripBlocksFrom .comment line opened none rest).map (c :: ·)
            | .string =>
                if c = '\\' then
                  (stripBlocksFrom .string line opened (some true) rest).map (c :: ·)
                else
                  (stripBlocksFrom (if c = '"' then .code else .string) line opened none
                    rest).map (c :: ·)
            | .char =>
                if c = '\\' then
                  (stripBlocksFrom .char line opened (some true) rest).map (c :: ·)
                else
                  (stripBlocksFrom (if c = '\'' then .code else .char) line opened none
                    rest).map (c :: ·)
            | .code =>
                if c = '/' ∧ rest.head? = some '/' then
                  (stripBlocksFrom .comment line opened none rest).map (c :: ·)
                else if c = '/' ∧ rest.head? = some '*' then
                  stripBlocksFrom .block line line (some false) rest
                else
                  (stripBlocksFrom (if c = '"' then .string else if c = '\'' then .char
                    else .code) line opened none rest).map (c :: ·)

def stripBlockComments (source : List Char) : Except EmuError (List Char) :=
  stripBlocksFrom .code 1 0 none source

/-- A literal's length after its opening quote, its closing one included if it has it. -/
def literalTail (quote : Char) (escaped : Bool) : List Char → Nat
  | [] => 0
  | c :: rest =>
      if escaped then literalTail quote false rest + 1
      else if c = '\\' then literalTail quote true rest + 1
      else if c = quote then 1
      else literalTail quote false rest + 1

/-- What stands before the parenthesis that closes the ones open so far. -/
def closingParenFrom (depth : Nat) : List Char → Option (List Char)
  | [] => none
  | c :: rest =>
      if c = '(' then (closingParenFrom (depth + 1) rest).map (c :: ·)
      else if c = ')' then
        if depth - 1 = 0 then some [] else (closingParenFrom (depth - 1) rest).map (c :: ·)
      else if c = '\n' then none
      else (closingParenFrom depth rest).map (c :: ·)

/-- What the parenthesis `s` opens with encloses, if it is closed on this line. -/
def closingParen (s : List Char) : Option (List Char) := (closingParenFrom 0 s).map List.tail

def splitArgsFrom (depth : Nat) (arg : List Char) : List Char → List (List Char)
  | [] => [trimStart arg.reverse]
  | c :: rest =>
      if c = ',' ∧ depth = 0 then trimStart arg.reverse :: splitArgsFrom 0 [] rest
      else
        splitArgsFrom (if c = '(' then depth + 1 else if c = ')' then depth - 1 else depth)
          (c :: arg) rest

/-- A call's arguments, split at the commas outside nested parentheses. -/
def splitArgs (inside : List Char) : List (List Char) := splitArgsFrom 0 [] inside

/-- What the front of a macro body becomes in a call, and the characters it uses: `$` with
digits, `#`, `*` or `@`, else the text up to the next `$`. -/
def bodyPiece (name : List Char) (args : List (List Char)) (c : Char) (rest : List Char) :
    List Char × Nat :=
  let plain := c :: rest.takeWhile (· ≠ '$')
  let digits := rest.takeWhile Char.isDigit
  if c = '$' ∧ digits ≠ [] then
    -- a number too large for a machine word is past the last argument too
    let n := digits.foldl (fun n d => n * 10 + Lexer.digitValue d) 0
    (if n = 0 then name else args.getD (n - 1) [], digits.length + 1)
  else if c = '$' ∧ rest.head? = some '#' then (Nat.toDigits 10 args.length, 2)
  else if c = '$' ∧ (rest.head? = some '*' ∨ rest.head? = some '@') then
    (List.intercalate [','] args, 2)
  else (plain, plain.length)

/-- A macro body with a call's arguments put in.  The text written so far comes back with
the reason to stop, if there was one. -/
def fillArgs (name : List Char) (args : List (List Char)) (limit : Nat) :
    Nat → List Char → List Char → List Char × Option Stop
  | _, [], out => (out, none)
  | skip + 1, _ :: rest, out => fillArgs name args limit skip rest out
  | 0, c :: rest, out =>
      if limit < Lexer.utf8Size out then (out, some .cap)
      else
        let (text, used) := bodyPiece name args c rest
        fillArgs name args limit (used - 1) rest (out ++ text)

/-- What one turn of a substitution pass writes. -/
inductive Piece
  | copied (text : List Char)
  | replaced (body : List Char)
  | call (name body : List Char) (args : List (List Char))
deriving DecidableEq, Repr

def isBoundary (c : Char) : Bool := c = '"' || c = '\'' || c = '#' || Lexer.isIdStart c

/-- What the identifier at the front of a line becomes. -/
def namePiece (defines : Macros) (respectLiterals : Bool) (name after : List Char) :
    Except Stop (Piece × Nat) :=
  match defines name with
  | none => .ok (.copied name, name.length)
  | some body =>
      if respectLiterals then .ok (.replaced body, name.length)
      else if after.head? = some '(' then
        match closingParen after with
        | some inside => .ok (.call name body (splitArgs inside), name.length + inside.length + 2)
        | none => .error .unclosed
      else .ok (.call name body [], name.length)

/-- One turn of a substitution pass: what it writes for the front of the line, and the
characters it uses. -/
def nextPiece (defines : Macros) (respectLiterals : Bool) (c : Char) (rest : List Char) :
    Except Stop (Piece × Nat) :=
  if respectLiterals = false ∧ c = '#' then
    let text := c :: rest.takeWhile (· ≠ '\n')
    .ok (.copied text, text.length)
  else if respectLiterals = true ∧ (c = '"' ∨ c = '\'') then
    let text := c :: rest.take (literalTail c false rest)
    .ok (.copied text, text.length)
  else if Lexer.isIdStart c then
    namePiece defines respectLiterals (c :: rest.takeWhile Lexer.isIdContinue)
      (rest.dropWhile Lexer.isIdContinue)
  else
    let text := c :: rest.takeWhile fun d => !isBoundary d
    .ok (.copied text, text.length)

def Piece.write (limit : Nat) (out : List Char) : Piece → List Char × Option Stop
  | .copied text => (out ++ text, none)
  | .replaced body => (out ++ body, none)
  | .call name body args => fillArgs name args limit 0 body out

/-- One pass over what is left of a line, `skip` characters of which are used up already:
the text it has written when it ends, and why it stopped short if it did. -/
def substitutePass (defines : Macros) (limit : Nat) (respectLiterals : Bool) :
    Nat → List Char → List Char → List Char × Option Stop
  | _, [], out => (out, none)
  | skip + 1, _ :: rest, out => substitutePass defines limit respectLiterals skip rest out
  | 0, c :: rest, out =>
      if limit < Lexer.utf8Size out then (out, some .cap)
      else
        match nextPiece defines respectLiterals c rest with
        | .error stop => (out, some stop)
        | .ok (piece, used) =>
            match piece.write limit out with
            | (out, some stop) => (out, some stop)
            | (out, none) =>
                substitutePass defines limit respectLiterals (used - 1) rest out

/-- One round as m4 does it. -/
def substituteOnceGnu (line : List Char) (defines : Macros) (limit : Nat) :
    Except Stop (List Char) :=
  match substitutePass defines limit false 0 line [] with
  | (out, none) => .ok out
  | (_, some stop) => .error stop

def Stop.message : Stop → String
  | .cap =>
      "m4 expansion grew this line past " ++ toString maxExpandedLineBytes ++
        " bytes; a define() chain is expanding without settling"
  | .unclosed =>
      "a macro's arguments run past the end of the line: the playground's m4 needs the " ++
        "closing `)` on the same line"

/-- How long a round may let a line grow: a line that is long already still passes. -/
def lineLimit (line : List Char) : Nat := max maxExpandedLineBytes (Lexer.utf8Size line)

def substituteBounded (line : List Char) (defines : Macros) (lineNum : Nat) :
    Except EmuError (List Char) :=
  match substituteOnceGnu line defines (lineLimit line) with
  | .ok next => .ok next
  | .error stop => .error (.preprocError lineNum stop.message)

def recursionExceeded : String :=
  "m4 recursion exceeded " ++ toString maxRecursion ++ " rounds"

/-- Rounds until one changes nothing, `rounds` of them before the last. -/
def expandRounds (defines : Macros) (lineNum : Nat) :
    Nat → List Char → Except EmuError (List Char)
  | 0, current => do
      let next ← substituteBounded current defines lineNum
      if next ≠ current then .error (.preprocError lineNum recursionExceeded)
      else return current
  | rounds + 1, current => do
      let next ← substituteBounded current defines lineNum
      if next = current then return current
      else expandRounds defines lineNum rounds next

def expandRecursively (line : List Char) (defines : Macros) (lineNum : Nat) :
    Except EmuError (List Char) :=
  expandRounds defines lineNum maxRecursion line

end M4

end Playground
