/-
The console panel's scrollback: one stream of the program's output as text, with the place
it has in the machine's own count of bytes, so that a step back can unprint.
-/
import Playground.Library.CodeUnits

namespace Playground

namespace Console

open CodeUnits

def maxConsoleChars : Nat := 256 * 1024

/-- The line that stands for output no longer held. -/
def consoleTrimMarker : CodeUnits := codeUnits "[...earlier output trimmed...]\n"

/-- Where the scrollback sits in the machine's output, in absolute bytes. -/
structure StreamPosition where
  seenBase : Int
  bytesHeld : Int
  historyBytes : Int
deriving DecidableEq, Repr

/-- One stream's scrollback. -/
structure Scrollback where
  text : CodeUnits
  pos : StreamPosition
deriving DecidableEq, Repr

def empty : Scrollback := ⟨[], ⟨0, 0, 0⟩⟩

def isMarked (text : CodeUnits) : Bool := consoleTrimMarker.isPrefixOf text

/-- The text without the marker in front. -/
def bodyOf (text : CodeUnits) : CodeUnits :=
  if isMarked text then text.drop consoleTrimMarker.length else text

def withMarker (marked : Bool) (body : CodeUnits) : CodeUnits :=
  if marked then consoleTrimMarker ++ body else body

structure BoundedAppend where
  text : CodeUnits
  droppedBytes : Nat

/-- Append, keeping the newest units. -/
def appendBoundedTracked (prev delta : CodeUnits) : BoundedAppend :=
  let next := bodyOf prev ++ delta
  if next.length ≤ maxConsoleChars then ⟨withMarker (isMarked prev) next, 0⟩
  else
    let cut := next.length - maxConsoleChars
    ⟨consoleTrimMarker ++ next.drop cut, byteLength (next.take cut)⟩

def Scrollback.append (s : Scrollback) (delta : CodeUnits) : Scrollback :=
  let appended := appendBoundedTracked s.text delta
  -- a trim eats the kept history first, which stands for none of the machine's bytes
  let fromHistory := min s.pos.historyBytes appended.droppedBytes
  { text := appended.text
    pos :=
      { historyBytes := s.pos.historyBytes - fromHistory
        bytesHeld := s.pos.bytesHeld + (byteLength delta - (appended.droppedBytes - fromHistory))
        seenBase := s.pos.seenBase + (appended.droppedBytes - fromHistory) } }

/-- Where a slice up to an index ends; a negative index counts from the end. -/
def sliceEnd (length : Nat) (index : Int) : Nat :=
  if index < 0 then (length + index).toNat else index.toNat

def byteOrderMark : UInt16 := 0xfeff

/-- The decoder takes a byte order mark off the front. -/
def withoutMark : CodeUnits → CodeUnits
  | [] => []
  | u :: s => if u = byteOrderMark then s else u :: s

def decodeFirst (index : Int) (body : CodeUnits) : CodeUnits :=
  withoutMark (takeBytes (sliceEnd (byteLength body) index) body)

/-- Match the scrollback to the machine's counter. -/
def Scrollback.syncSeen (s : Scrollback) (seen : Nat) : Scrollback :=
  if seen ≥ s.pos.seenBase + s.pos.bytesHeld then
    { s with pos := { s.pos with seenBase := seen - s.pos.bytesHeld } }
  else
    let target := max 0 (seen - s.pos.seenBase)
    let body := bodyOf s.text
    let kept := decodeFirst (byteLength body - s.pos.bytesHeld + target) body
    { text := withMarker (isMarked s.text) kept
      pos := { s.pos with bytesHeld := target, seenBase := seen - target } }

def Scrollback.clear (s : Scrollback) : Scrollback :=
  { text := [], pos := { s.pos with bytesHeld := 0, historyBytes := 0 } }

/-- The text stays, as history the machine's counters know nothing of. -/
def Scrollback.preserve (s : Scrollback) : Scrollback :=
  { s with pos := ⟨0, 0, byteLength (bodyOf s.text)⟩ }

/-- What the scrollback ought to show: the kept history, and each character of the program
with the machine's offset it was written at; with them the machine's counter. -/
structure Ledger where
  history : List Char
  log : List (Nat × Char)
  counter : Nat
deriving DecidableEq, Repr

/-- The characters of a text, each at its offset. -/
def placed : Nat → List Char → List (Nat × Char)
  | _, [] => []
  | offset, c :: cs => (offset, c) :: placed (offset + c.utf8Size) cs

/-- Drop characters from the front until `n` code units are gone. -/
def dropUnits {α : Type} (char : α → Char) : Nat → List α → List α
  | _, [] => []
  | n, x :: xs =>
      if n = 0 then x :: xs else dropUnits char (n - (charUnits (char x)).length) xs

def Ledger.shown (l : Ledger) : List Char := l.history ++ l.log.map Prod.snd

/-- The oldest characters go when the text is too long. -/
def Ledger.fit (l : Ledger) : Ledger :=
  let cut := (ofChars l.shown).length - maxConsoleChars
  { l with
    history := dropUnits id cut l.history
    log := dropUnits Prod.snd (cut - (ofChars l.history).length) l.log }

structure State where
  scrollback : Scrollback
  ledger : Ledger

def initial : State := ⟨empty, ⟨[], [], 0⟩⟩

inductive Event
  /-- The program writes whole characters and the console is given them. -/
  | append (delta : List Char)
  /-- The terminal pane is given them. -/
  | divert (delta : List Char)
  | clear
  | preserve
  /-- The machine's counter is `seen` now: it ran on, stepped back or was restored. -/
  | sync (seen : Nat)

def Ledger.step (l : Ledger) : Event → Ledger
  | .append delta =>
      Ledger.fit
        { l with log := l.log ++ placed l.counter delta, counter := l.counter + bytes delta }
  | .divert delta => { l with counter := l.counter + bytes delta }
  | .clear => { l with history := [], log := [] }
  | .preserve => { l with history := l.shown, log := [] }
  | .sync seen => { l with log := l.log.filter fun w => w.1 < seen, counter := seen }

def Scrollback.step (s : Scrollback) : Event → Scrollback
  | .append delta => s.append (ofChars delta)
  | .divert _ => s
  | .clear => s.clear
  | .preserve => s.preserve
  | .sync seen => s.syncSeen seen

def step (st : State) (event : Event) : State :=
  ⟨st.scrollback.step event, st.ledger.step event⟩

/-- The scrollback shows what it ought to, and counts its bytes. -/
structure Agrees (st : State) : Prop where
  body_eq : bodyOf st.scrollback.text = ofChars st.ledger.shown
  bytes_eq : st.scrollback.pos.historyBytes + st.scrollback.pos.bytesHeld =
    byteLength (bodyOf st.scrollback.text)

end Console

end Playground
