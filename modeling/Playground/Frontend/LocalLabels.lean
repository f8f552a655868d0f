/-
Numeric local labels: `N:` may be defined any number of times, and `Nb` and `Nf` name the
nearest definition above or below.  The pass gives each definition a name of its own.
-/
import Playground.Frontend.M4

namespace Playground

namespace LocalLabels

open Lexer

def isWordChar (c : Char) : Bool := c.isAlphanum || c = '_' || c = '.' || c = '$'

def isQuote (c : Char) : Bool := c = '"' || c = '\''

def isAsciiWhitespace (c : Char) : Bool :=
  c = ' ' || c = '\t' || c = '\n' || c = '\x0C' || c = '\r'

/-- What may stand between two labels of a line. -/
def isLabelGap (c : Char) : Bool := isAsciiWhitespace c || c = ':'

def isMark (c : Char) : Bool := !isWordChar c && !isQuote c

/-- The name of definition `k` of the number `n`. -/
def labelName (n : List Char) (k : Nat) : List Char :=
  ".L".toList ++ n ++ "_fb".toList ++ Nat.toDigits 10 k

/-- What the pass sees at the front of a line. -/
inductive Chunk
  | copied (text : List Char)
  | define (n : List Char)
  | back (n : List Char)
  | forward (n : List Char)
deriving DecidableEq, Repr

/-- The chunk at the front of a line, the characters it uses, and whether a label may
follow it; `place` is whether one may stand here. -/
def nextChunk (place : Bool) (c : Char) (rest : List Char) : Chunk × Nat × Bool :=
  if isQuote c then
    let text := c :: rest.take (M4.literalTail c false rest)
    (.copied text, text.length, false)
  else if isWordChar c = false then
    let text := c :: rest.takeWhile isMark
    (.copied text, text.length, place && text.all isLabelGap)
  else
    let word := c :: rest.takeWhile isWordChar
    let digits := word.dropLast
    let last := word.getLast?
    let colon : Bool := (rest.dropWhile isWordChar).head? = some ':'
    let reference : Bool := !digits.isEmpty && digits.all Char.isDigit
    if place && colon && word.all Char.isDigit then (.define word, word.length, place)
    else if reference && last = some 'b' then (.back digits, word.length, false)
    else if reference && last = some 'f' then (.forward digits, word.length, false)
    else (.copied word, word.length, place && colon)

/-- How often each number was defined, and the forward references, each with the instance
it names and its line. -/
structure Labels where
  seen : List (List Char × Nat)
  forward : List (List Char × Nat × Nat)

def count (seen : List (List Char × Nat)) (n : List Char) : Nat :=
  ((seen.find? fun e => e.1 = n).map Prod.snd).getD 0

def setCount (n : List Char) (k : Nat) : List (List Char × Nat) → List (List Char × Nat)
  | [] => [(n, k)]
  | e :: seen => if e.1 = n then (e.1, k) :: seen else e :: setCount n k seen

def unknownBackward (n : List Char) (line : Nat) : EmuError :=
  .parseError line ("backward ref to unknown label \"" ++ String.ofList n ++ ":\"\n`" ++
    String.ofList n ++ "b` means the nearest `" ++ String.ofList n ++
    ":` above, and there is none")

def undefinedForward (n : List Char) (k line : Nat) : EmuError :=
  .parseError line ("local label `\"" ++ String.ofList n ++ "\" (instance number " ++
    toString k ++ " of a fb label)' is not defined\n`" ++ String.ofList n ++
    "f` means the next `" ++ String.ofList n ++ ":` below, and there is none")

/-- What the pass writes for a chunk. -/
def Labels.name (st : Labels) (line : Nat) : Chunk → Except EmuError (Labels × List Char)
  | .copied text => .ok (st, text)
  | .define n =>
      let k := count st.seen n + 1
      .ok ({ st with seen := setCount n k st.seen }, labelName n k)
  | .back n =>
      let k := count st.seen n
      if k = 0 then .error (unknownBackward n line) else .ok (st, labelName n k)
  | .forward n =>
      let k := count st.seen n + 1
      .ok ({ st with forward := st.forward ++ [(n, k, line)] }, labelName n k)

/-- The pieces written for what is left of a line, `skip` characters of which are used up
already. -/
def nameLine (line : Nat) : Bool → Nat → List Char → Labels →
    Except EmuError (Labels × List (List Char))
  | _, _, [], st => .ok (st, [])
  | place, skip + 1, _ :: rest, st => nameLine line place skip rest st
  | place, 0, c :: rest, st => do
      let (chunk, used, place) := nextChunk place c rest
      let (st, text) ← st.name line chunk
      let (st, pieces) ← nameLine line place (used - 1) rest st
      return (st, text :: pieces)

def nameLines : Nat → List (List Char) → Labels →
    Except EmuError (Labels × List (List (List Char)))
  | _, [], st => .ok (st, [])
  | line, text :: lines, st => do
      let (st, pieces) ← nameLine line true 0 text st
      let (st, more) ← nameLines (line + 1) lines st
      return (st, pieces :: more)

/-- The pieces written for each line, once every forward reference has its definition. -/
def namedPieces (text : List Char) : Except EmuError (List (List (List Char))) := do
  let (st, lines) ← nameLines 1 (text.splitOn '\n') ⟨[], []⟩
  match st.forward.find? fun e => decide (count st.seen e.1 < e.2.1) with
  | some (n, k, line) => .error (undefinedForward n k line)
  | none => return lines

section Pieces

variable {text : List Char} {st : Labels} {lines : List (List (List Char))} {e : EmuError}

theorem namedPieces_of_error (h : nameLines 1 (text.splitOn '\n') ⟨[], []⟩ = .error e) :
    namedPieces text = .error e := by
  rw [namedPieces, h]
  rfl

theorem namedPieces_of_missing {n : List Char} {k line : Nat}
    (h : nameLines 1 (text.splitOn '\n') ⟨[], []⟩ = .ok (st, lines))
    (hfind : (st.forward.find? fun e => decide (count st.seen e.1 < e.2.1)) = some (n, k, line)) :
    namedPieces text = .error (undefinedForward n k line) := by
  rw [namedPieces, h]
  simp only [bind, Except.bind, hfind]

theorem namedPieces_of_found
    (h : nameLines 1 (text.splitOn '\n') ⟨[], []⟩ = .ok (st, lines))
    (hfind : (st.forward.find? fun e => decide (count st.seen e.1 < e.2.1)) = none) :
    namedPieces text = .ok lines := by
  rw [namedPieces, h]
  simp only [bind, Except.bind, hfind, pure, Except.pure]

end Pieces

def nameLocalLabels (text : List Char) : Except EmuError (List Char) :=
  (namedPieces text).map fun lines => List.intercalate ['\n'] (lines.map List.flatten)

example : nameLocalLabels "1:b 1b".toList = .ok ".L1_fb1:b .L1_fb1".toList := by
  decide

end LocalLabels

end Playground
