/-
The m4 expander: a first pass over the source for its `define` and `undefine` lines, a
second that substitutes line by line under the bindings met so far.
-/
import Playground.Frontend.M4

namespace Playground

namespace M4

def isValidIdent (s : List Char) : Bool :=
  match s with
  | [] => false
  | c :: rest => Lexer.isIdStart c && rest.all Lexer.isIdContinue

/-- What follows a word at the front of a text. -/
def stripPrefix (word : String) (s : List Char) : Option (List Char) :=
  if word.toList.isPrefixOf s then some (s.drop word.toList.length) else none

/-- Where a scanner that steps over literals stands. -/
structure QuoteState where
  inString : Bool
  inChar : Bool
  escape : Bool
deriving DecidableEq, Repr

def QuoteState.start : QuoteState := ⟨false, false, false⟩

/-- The state past a character that a literal claims; `none` at any other. -/
def QuoteState.step (q : QuoteState) (c : Char) : Option QuoteState :=
  if q.escape then some ⟨q.inString, q.inChar, false⟩
  else if c = '\\' ∧ (q.inString || q.inChar) then some ⟨q.inString, q.inChar, true⟩
  else if q.inString then some ⟨c ≠ '"', q.inChar, false⟩
  else if q.inChar then some ⟨q.inString, c ≠ '\'', false⟩
  else if c = '"' then some ⟨true, false, false⟩
  else if c = '\'' then some ⟨false, true, false⟩
  else none

def splitOuterParensFrom (q : QuoteState) (depth : Nat) (seen : List Char) :
    List Char → Option (List Char × List Char)
  | [] => none
  | c :: rest =>
      match q.step c with
      | some q => splitOuterParensFrom q depth (c :: seen) rest
      | none =>
          if c = '(' then splitOuterParensFrom q (depth + 1) (c :: seen) rest
          else if c = ')' then
            if depth - 1 = 0 then some (seen.reverse, rest)
            else splitOuterParensFrom q (depth - 1) (c :: seen) rest
          else splitOuterParensFrom q depth (c :: seen) rest

/-- The text before and after the parenthesis closing the one that stood before `s`. -/
def splitOuterParens (s : List Char) : Option (List Char × List Char) :=
  splitOuterParensFrom .start 1 [] s

def splitTopLevelCommaFrom (q : QuoteState) (depth : Nat) (seen : List Char) :
    List Char → Option (List Char × List Char)
  | [] => none
  | c :: rest =>
      match q.step c with
      | some q => splitTopLevelCommaFrom q depth (c :: seen) rest
      | none =>
          if c = '(' then splitTopLevelCommaFrom q (depth + 1) (c :: seen) rest
          else if c = ')' then splitTopLevelCommaFrom q (depth - 1) (c :: seen) rest
          else if c = ',' ∧ depth = 0 then some (seen.reverse, rest)
          else splitTopLevelCommaFrom q depth (c :: seen) rest

def splitTopLevelComma (s : List Char) : Option (List Char × List Char) :=
  splitTopLevelCommaFrom .start 0 [] s

/-- What follows the `(` of a word's call, blanks between them or not. -/
def callOf (word : String) (s : List Char) : Option (List Char) :=
  match (stripPrefix word s).map trimStart with
  | some ('(' :: rest) => some rest
  | _ => none

def isAttemptedDefine (trimmed : List Char) : Bool := (callOf "define" trimmed).isSome

def parseDefine (trimmed : List Char) : Option (List Char × List Char) := do
  let insidePlus ← callOf "define" trimmed
  let (inside, after) ← splitOuterParens insidePlus
  if trim after ≠ [] then none
  else
    let (name, body) ← splitTopLevelComma inside
    -- arguments past the body are ignored
    let body := match splitTopLevelComma body with
      | some (body, _) => body
      | none => body
    let name := trim name
    if isValidIdent name then some (name, trim body) else none

def commentInsideDefineBody (raw : List Char) : Option String :=
  let raw := trim raw
  let kept := (stripComment raw).length
  if (parseDefine raw).isNone ∨ kept = raw.length then none
  else if (['/', '/'] : List Char).isPrefixOf (raw.drop kept) then some "//"
  else some ";"

/-- What is wrong with a define that does not parse: `trimmed` is the line without its
comment, `raw` the line as written. -/
def diagnoseDefine (trimmed raw : List Char) : String :=
  match callOf "define" trimmed with
  | none => "expected `(` after define"
  | some insidePlus =>
      match splitOuterParens insidePlus with
      | none =>
          match commentInsideDefineBody raw with
          | some marker =>
              "the `" ++ marker ++ "` comment inside the body ends the line before the " ++
                "closing `)`. Move the comment after the `)`"
          | none => "the closing `)` is missing"
      | some (inside, after) =>
          if trim after ≠ [] then
            "unexpected text after the closing `)`: `" ++ String.ofList (trim after) ++ "`"
          else
            match splitTopLevelComma inside with
            | none => "the comma between the name and the body is missing"
            | some (name, _) =>
                if trim name = [] then "the macro name is empty"
                else
                  "`" ++ String.ofList (trim name) ++ "` is not a valid macro name " ++
                    "(letters, digits and _ only, not starting with a digit)"

def malformedDefine (lineNum : Nat) (why : String) : EmuError :=
  .preprocError lineNum
    ("malformed m4 define: " ++ why ++ ". Write it as `define(NAME, body)`")

/-- The arguments of a quoted define as far as they are read. -/
structure QuotedArgs where
  read : List (List Char)
  arg : List Char
  quotes : Nat
  parens : Nat
  leading : Bool
deriving DecidableEq, Repr

def QuotedArgs.start : QuotedArgs := ⟨[], [], 0, 0, true⟩

def QuotedArgs.push (s : QuotedArgs) (c : Char) : QuotedArgs := { s with arg := s.arg ++ [c] }

/-- One character of a quoted define's call; `none` at the parenthesis that closes it. -/
def QuotedArgs.step (s : QuotedArgs) (c : Char) : Option QuotedArgs :=
  if c = '\x60' then
    some { (if 0 < s.quotes then s.push c else s) with
      quotes := s.quotes + 1, leading := false }
  else if c = '\'' ∧ 0 < s.quotes then
    some { (if 0 < s.quotes - 1 then s.push c else s) with quotes := s.quotes - 1 }
  else if 0 < s.quotes then some (s.push c)
  else if s.leading ∧ isSpace c then some s
  else if c = ')' ∧ s.parens = 0 then none
  else if c = ',' ∧ s.parens = 0 then
    some { s with read := s.read ++ [s.arg], arg := [], leading := true }
  else
    some { s.push c with
      parens := if c = '(' then s.parens + 1 else if c = ')' then s.parens - 1 else s.parens
      leading := false }

/-- A line of the call: the arguments past it, and what follows the closing parenthesis
if that is on it. -/
def QuotedArgs.scan (s : QuotedArgs) : List Char → QuotedArgs × Option (List Char)
  | [] => (s, none)
  | c :: rest =>
      match s.step c with
      | some s => s.scan rest
      | none => (s, some rest)

/-- The line break before a further line of the call. -/
def QuotedArgs.newLine (s : QuotedArgs) : QuotedArgs :=
  if 0 < s.quotes ∨ s.leading = false then s.push '\n' else s

def trimEnd (s : List Char) : List Char := (s.reverse.dropWhile isSpace).reverse

/-- The name and the body of a quoted define whose call is closed. -/
def QuotedArgs.close (s : QuotedArgs) (lineNum : Nat) (after : List Char) :
    Except EmuError (List Char × List Char) :=
  if trim (stripComment after) ≠ [] then
    .error (malformedDefine lineNum "unexpected text after the closing `)`")
  else
    match s.read ++ [s.arg] with
    | name :: body :: _ =>
        if isValidIdent (trimEnd name) = false then
          .error (malformedDefine lineNum
            ("`" ++ String.ofList (trimEnd name) ++ "` is not a valid macro name"))
        else
          .ok (trimEnd name, List.intercalate ['\n'] ((body.splitOn '\n').map stripComment))
    | _ =>
        .error (malformedDefine lineNum
          "the comma between the name and the body is missing")

/-- The rest of a quoted define, and how many lines it takes. -/
def parseQuotedFrom (lineNum : Nat) (s : QuotedArgs) :
    List (List Char) → Except EmuError (List Char × List Char × Nat)
  | [] => .error (malformedDefine lineNum "the closing `)` is missing")
  | line :: lines =>
      match s.scan line with
      | (s, some after) => do
          let (name, body) ← s.close lineNum after
          return (name, body, 1)
      | (s, none) => do
          let (name, body, used) ← parseQuotedFrom lineNum s.newLine lines
          return (name, body, used + 1)

/-- A define whose arguments carry quotes: name, body and the lines it spans, `raw` being
the first. -/
def parseQuotedDefine (raw : List Char) (lines : List (List Char)) (lineNum : Nat) :
    Except EmuError (List Char × List Char × Nat) :=
  parseQuotedFrom lineNum .start (((trimStart raw).dropWhile (· ≠ '(')).tail :: lines)

def undefineName (part : List Char) : Option (List Char) :=
  let part := trim part
  let part := if part.head? = some '\x60' then part.tail else part
  let part := if part.getLast? = some '\'' then part.dropLast else part
  let part := trim part
  if isValidIdent part then some part else none

def parseUndefine (trimmed : List Char) : Option (List (List Char)) := do
  let insidePlus ← callOf "undefine" trimmed
  let after := (insidePlus.reverse.takeWhile (· ≠ ')')).reverse
  if ')' ∉ insidePlus ∨ trim after ≠ [] then none
  else
    let inside := insidePlus.take (insidePlus.length - after.length - 1)
    (inside.splitOn ',').mapM undefineName

/-- `name = expr`. -/
def parseAssignment (trimmed : List Char) : Option (List Char × List Char) :=
  if trimmed.getLast? = some ':' ∨ trimmed.head? = some '.' ∨
      trimmed.head?.all Lexer.isIdStart = false ∨ trimmed = [] then none
  else
    match trimStart (trimmed.dropWhile Lexer.isIdContinue) with
    | '=' :: rest =>
        if rest.head? = some '=' ∨ trim rest = [] then none
        else some (trimmed.takeWhile Lexer.isIdContinue, trim rest)
    | _ => none

def detectUnsupported (line : List Char) : Option String :=
  if '\x60' ∈ line then some "backtick-quoted string"
  else
    match ["ifdef", "ifelse", "forloop"].find? fun kw => (callOf kw line).isSome with
    | some kw => some kw
    | none =>
        if line = "dnl".toList ∨ (stripPrefix "dnl " line).isSome ∨
            (stripPrefix "dnl\t" line).isSome then some "dnl"
        else none

/-- What the first pass makes of one line: its events, the text it keeps, the assignment
on it, and how many lines it takes. -/
structure LineRead where
  events : List (List Char × Option (List Char))
  text : List Char
  assignment : Option (List Char × List Char)
  used : Nat
deriving DecidableEq, Repr

/-- A `define` or `undefine` line, of which nothing is kept. -/
def LineRead.blank (events : List (List Char × Option (List Char))) (used : Nat) : LineRead :=
  ⟨events, [], none, used⟩

def readLine (lineNum : Nat) (raw : List Char) (lines : List (List Char)) :
    Except EmuError LineRead :=
  let withoutComment := stripComment raw
  let trimmed := trim withoutComment
  match parseUndefine trimmed with
  | some names => .ok (.blank (names.map fun name => (name, none)) 1)
  | none =>
      if '\x60' ∈ raw ∧ isAttemptedDefine (trimStart raw) then do
        let (name, body, used) ← parseQuotedDefine raw lines lineNum
        return .blank [(name, some body)] used
      else
        match detectUnsupported trimmed with
        | some kw => .error (.preprocError lineNum ("unsupported m4 construct: " ++ kw))
        | none =>
            match parseDefine trimmed with
            | some (name, body) => .ok (.blank [(name, some body)] 1)
            | none =>
                if isAttemptedDefine trimmed then
                  .error (malformedDefine lineNum (diagnoseDefine trimmed (trim raw)))
                else .ok ⟨[], withoutComment, parseAssignment trimmed, 1⟩

/-- A `define` (with its body) or an `undefine`, at a line of the source. -/
structure DefineEvent where
  line : Nat
  name : List Char
  body : Option (List Char)
deriving DecidableEq, Repr

/-- What the first pass collects; lines are counted from zero. -/
structure Collected where
  assignments : List (List Char × List Char)
  stripped : List (Nat × List Char)
  events : List DefineEvent
deriving DecidableEq, Repr

/-- The first pass from a line on; `skip` lines of it are inside a define above. -/
def collectFrom : Nat → Nat → List (List Char) → Except EmuError Collected
  | _, _, [] => .ok ⟨[], [], []⟩
  | idx, skip + 1, _ :: lines => collectFrom (idx + 1) skip lines
  | idx, 0, raw :: lines => do
      let read ← readLine (idx + 1) raw lines
      let more ← collectFrom (idx + 1) (read.used - 1) lines
      return ⟨read.assignment.toList ++ more.assignments, (idx, read.text) :: more.stripped,
        read.events.map (fun e => ⟨idx, e.1, e.2⟩) ++ more.events⟩

/-- The bindings after one more event. -/
def Macros.apply (current : Macros) (e : DefineEvent) : Macros :=
  match e.body with
  | some body => current.insert e.name body
  | none => current.remove e.name

/-- Pick up the events down to a line: the bindings there, and the events below. -/
def takeEvents (idx : Nat) : List DefineEvent → Macros → Macros × List DefineEvent
  | [], current => (current, [])
  | e :: events, current =>
      if idx < e.line then (current, e :: events)
      else takeEvents idx events (current.apply e)

/-- One line of the walk: where it is in the source, the bindings there, what it became. -/
structure OutputLine where
  lineNum : Nat
  bindings : Macros
  text : List Char

def totalExceeded : String :=
  "m4 expansion grew the whole source past " ++
    toString (maxExpandedTotalBytes / (1024 * 1024)) ++ " MiB. A macro body " ++
    "repeated across many lines can blow up the output; shrink the " ++
    "macro or the number of references"

/-- The second pass: every kept line expanded under the bindings met so far. -/
def substituteLines : List (Nat × List Char) → List DefineEvent → Macros → Nat →
    Except EmuError (List OutputLine)
  | [], _, _, _ => .ok []
  | (idx, line) :: stripped, events, current, total => do
      let (current, events) := takeEvents idx events current
      let expanded ← expandRecursively line current (idx + 1)
      let total := total + Lexer.utf8Size expanded
      if maxExpandedTotalBytes < total then .error (.preprocError (idx + 1) totalExceeded)
      else
        let more ← substituteLines stripped events current total
        return ⟨idx + 1, current, expanded⟩ :: more

/-- The result of an expansion. -/
structure Expanded where
  text : List Char
  lineMap : List Nat
  defines : Macros
  assignments : Macros
  defineEvents : List DefineEvent
  windowed : List Char → Bool

/-- The body of a name at a line, among events in source order. -/
def bodyAt (name : List Char) (line : Nat) :
    List DefineEvent → Option (List Char) → Option (List Char)
  | [], body => body
  | e :: events, body =>
      if line < e.line then body
      else bodyAt name line events (if e.name = name then e.body else body)

/-- The body in effect for a name at a line of the source. -/
def Expanded.defineBodyAt (r : Expanded) (name : List Char) (line : Nat) :
    Option (List Char) :=
  if r.windowed name then bodyAt name line r.defineEvents none else r.defines name

def defineCount (events : List DefineEvent) (name : List Char) : Nat :=
  events.countP fun e => e.name = name && e.body.isSome

def isUndefined (events : List DefineEvent) (name : List Char) : Bool :=
  events.any fun e => e.name = name && e.body.isNone

/-- Whether a defined name is defined again or undefined. -/
def isWindowed (events : List DefineEvent) (name : List Char) : Bool :=
  decide (0 < defineCount events name) &&
    (decide (defineCount events name ≠ 1) || isUndefined events name)

/-- The bodies with one more recorded: an undefine leaves them. -/
def Macros.record (m : Macros) (e : DefineEvent) : Macros :=
  match e.body with
  | some body => m.insert e.name body
  | none => m

/-- The last body of each name. -/
def lastBodies (events : List DefineEvent) : Macros :=
  events.foldl Macros.record fun _ => none

def OutputLine.lineNums (o : OutputLine) : List Nat :=
  List.replicate (o.text.count '\n' + 1) o.lineNum

/-- Both passes over the source: what the first collects and the lines of the second. -/
def walk (source : List Char) : Except EmuError (Collected × List OutputLine) := do
  let source ← stripBlockComments source
  let collected ← collectFrom 0 0 (Operands.splitLines source)
  let out ← substituteLines collected.stripped collected.events (fun _ => none) 0
  return (collected, out)

def assemble (collected : Collected) (out : List OutputLine) : Expanded where
  text := List.intercalate ['\n'] (out.map OutputLine.text)
  lineMap := out.flatMap OutputLine.lineNums
  defines := lastBodies collected.events
  assignments := collected.assignments.foldl (fun m a => m.insert a.1 a.2) fun _ => none
  defineEvents := collected.events.map fun e => { e with line := e.line + 1 }
  windowed := isWindowed collected.events

def expand (source : List Char) : Except EmuError Expanded :=
  (walk source).map fun r => assemble r.1 r.2

/-- One line of the second pass that goes through. -/
theorem of_substituteLines_cons {idx total : Nat} {line : List Char}
    {stripped : List (Nat × List Char)} {events : List DefineEvent} {current : Macros}
    {out : List OutputLine}
    (h : substituteLines ((idx, line) :: stripped) events current total = .ok out) :
    ∃ expanded more,
      expandRecursively line (takeEvents idx events current).1 (idx + 1) = .ok expanded ∧
      total + Lexer.utf8Size expanded ≤ maxExpandedTotalBytes ∧
      substituteLines stripped (takeEvents idx events current).2
        (takeEvents idx events current).1 (total + Lexer.utf8Size expanded) = .ok more ∧
      out = ⟨idx + 1, (takeEvents idx events current).1, expanded⟩ :: more := by
  obtain ⟨expanded, hline, h⟩ := bind_eq_ok h
  by_cases hpast : maxExpandedTotalBytes < total + Lexer.utf8Size expanded
  · rw [if_pos hpast] at h
    exact absurd h (by simp)
  · rw [if_neg hpast] at h
    obtain ⟨more, hmore, hout⟩ := bind_eq_ok h
    obtain rfl := Except.ok.inj hout
    exact ⟨expanded, more, hline, by omega, hmore, rfl⟩

/-- The stages of an expansion that goes through. -/
theorem of_expand {source : List Char} {r : Expanded} (h : expand source = .ok r) :
    ∃ blanked collected out, stripBlockComments source = .ok blanked ∧
      collectFrom 0 0 (Operands.splitLines blanked) = .ok collected ∧
      substituteLines collected.stripped collected.events (fun _ => none) 0 = .ok out ∧
      r = assemble collected out := by
  cases hwalk : walk source with
  | error e => simp [expand, hwalk, Except.map] at h
  | ok read =>
      obtain ⟨blanked, hblanked, hrest⟩ := bind_eq_ok hwalk
      obtain ⟨collected, hcollected, hrest⟩ := bind_eq_ok hrest
      obtain ⟨out, hout, hread⟩ := bind_eq_ok hrest
      obtain rfl := Except.ok.inj hread
      exact ⟨blanked, collected, out, hblanked, hcollected, hout,
        by simpa [expand, hwalk, Except.map] using h.symm⟩

end M4

end Playground
