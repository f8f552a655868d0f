/-
The variable arguments of a call, and the record kept of the conversions that take them.
-/
import Playground.Hosted.Arguments

namespace Playground

/-- `Conversion.code`: what went wrong there. -/
def callOk : Nat := 0

def callStopped : Nat := 1

def callNoMatch : Nat := 2

def callNoInput : Nat := 3

/-- The source of a conversion that read no argument. -/
def argNone : Int := -1

/-- A record keeps this many conversions, and this many bytes of each text. -/
def maxCallRows : Nat := 32

def maxCallBytes : Nat := 256

instance : Inhabited Conversion := ⟨⟨0, 0, 0, 0, 0, 0, 0, 0, 0⟩⟩

namespace CallRecord

def setText (c : CallRecord) (text : List Byte) : CallRecord :=
  { c with text := text.take maxCallBytes, textLen := text.length }

/-- Start over for a call with this format. -/
def begin (c : CallRecord) (fmt : List Byte) : CallRecord :=
  { c with
    began := true, fmt := fmt.take maxCallBytes, fmtLen := fmt.length, text := [], textLen := 0
    strings := [], rows := [], conversions := 0 }

def push (c : CallRecord) (row : Conversion) : CallRecord :=
  { c with
    conversions := c.conversions + 1
    rows := if c.rows.length < maxCallRows then c.rows ++ [row] else c.rows }

/-- The conversion pushed last, when it was kept. -/
def current (c : CallRecord) : Option Conversion :=
  if c.rows.length = c.conversions then c.rows.getLast? else none

/-- Change the conversion pushed last, when it was kept. -/
def updateCurrent (c : CallRecord) (f : Conversion → Conversion) : CallRecord :=
  match c.current with
  | some row => { c with rows := c.rows.dropLast ++ [f row] }
  | none => c

/-- A `%s` being formatted read these bytes. -/
def readString (c : CallRecord) (bytes : List Byte) : CallRecord :=
  match c.current with
  | some row =>
      { c with
        rows := c.rows.dropLast ++ [{ row with size := bytes.length }]
        strings := c.strings ++ bytes.take maxCallBytes }
  | none => c

end CallRecord

namespace Hosted

open Exec

def modifyCall (f : CallRecord → CallRecord) : Stub Unit :=
  Stub.modify fun side => { side with callScratch := f side.callScratch }

/-- Where the next arguments are: integers from a register through x7, doubles from d0
through d7, then both from the stack. -/
structure ArgCursor where
  gpIdx : Nat
  fpIdx : Nat
  stackOff : Nat
deriving DecidableEq, Repr

structure VarargWalker extends ArgCursor where
  /-- The last argument read: where it was, and its bits. -/
  last : Int × Word
deriving DecidableEq, Repr

namespace VarargWalker

def new (firstGp : Nat) : VarargWalker := ⟨⟨firstGp, 0, 0⟩, (argNone, 0)⟩

/-- The next slot of the stack, zero where none can be read. -/
def nextSpill (w : VarargWalker) : Exec (Word × VarargWalker) := do
  let sp ← readSp
  let value ← look fun m =>
    match m.mem.readU64 (sp + BitVec.ofNat 64 w.stackOff) with
    | .ok value => value
    | .error _ => 0
  return (value, { w with stackOff := w.stackOff + 8, last := (64 + w.stackOff / 8, value) })

def nextInt (w : VarargWalker) : Exec (Word × VarargWalker) :=
  if w.gpIdx ≤ 7 then do
    let value ← readGpr w.gpIdx true
    return (value, { w with gpIdx := w.gpIdx + 1, last := (w.gpIdx, value) })
  else w.nextSpill

def nextDouble (w : VarargWalker) : Exec (Word × VarargWalker) :=
  if w.fpIdx ≤ 7 then do
    let value ← readFprBits w.fpIdx
    return (value, { w with fpIdx := w.fpIdx + 1, last := (32 + w.fpIdx, value) })
  else w.nextSpill

end VarargWalker

namespace ArgCursor

/-- The value of the next stack slot. -/
def spill (c : ArgCursor) (m : Machine) : Word × ArgCursor :=
  (match m.mem.readU64 (m.regs.sp + BitVec.ofNat 64 c.stackOff) with
    | .ok value => value
    | .error _ => 0,
    { c with stackOff := c.stackOff + 8 })

/-- The next integer. -/
def int (c : ArgCursor) (m : Machine) : Word × ArgCursor :=
  if c.gpIdx ≤ 7 then (m.regs.gprValue c.gpIdx true, { c with gpIdx := c.gpIdx + 1 })
  else c.spill m

/-- The bits of the next double. -/
def double (c : ArgCursor) (m : Machine) : Word × ArgCursor :=
  if c.fpIdx ≤ 7 then ((m.regs.readFprBits c.fpIdx).2, { c with fpIdx := c.fpIdx + 1 })
  else c.spill m

end ArgCursor

/-- The two machines hold the same registers and memory; only what has been read is noted
differently. -/
structure SameView (m m' : Machine) : Prop where
  values : m'.regs.values = m.regs.values
  mem : m'.mem = m.mem
  heap : m'.heap = m.heap

namespace SameView

variable {m m' m'' : Machine}

theorem refl (m : Machine) : SameView m m := ⟨rfl, rfl, rfl⟩

theorem trans (h : SameView m m') (h' : SameView m' m'') : SameView m m'' :=
  ⟨h'.values.trans h.values, h'.mem.trans h.mem, h'.heap.trans h.heap⟩

theorem readGpr (m : Machine) (i : Nat) (sf : Bool) :
    SameView m ⟨(m.regs.readGpr i sf).1, m.mem, m.heap⟩ :=
  ⟨RegisterFile.values_readGpr m.regs i sf, rfl, rfl⟩

theorem gprValue (h : SameView m m') (i : Nat) (sf : Bool) :
    m'.regs.gprValue i sf = m.regs.gprValue i sf := RegisterFile.gprValue_congr h.values i sf

theorem spill (h : SameView m m') (c : ArgCursor) : c.spill m' = c.spill m := by
  have hsp : m'.regs.sp = m.regs.sp := congrArg RegisterValues.sp h.values
  unfold ArgCursor.spill
  rw [h.mem, hsp]

theorem int (h : SameView m m') (c : ArgCursor) : c.int m' = c.int m := by
  unfold ArgCursor.int
  rw [h.gprValue, h.spill]

theorem double (h : SameView m m') (c : ArgCursor) : c.double m' = c.double m := by
  have hfpr : m'.regs.fpr = m.regs.fpr := congrArg RegisterValues.fpr h.values
  have hbits : (m'.regs.readFprBits c.fpIdx).2 = (m.regs.readFprBits c.fpIdx).2 := by
    unfold RegisterFile.readFprBits
    rw [hfpr]
    split <;> rfl
  unfold ArgCursor.double
  rw [hbits, h.spill]

end SameView

namespace VarargWalker

theorem run_nextSpill (w : VarargWalker) (m : Machine) :
    ∃ w', w.nextSpill.run m = (m, .ok ((w.spill m).1, w')) ∧ w'.toArgCursor = (w.spill m).2 :=
  ⟨_, rfl, rfl⟩

theorem run_nextInt (w : VarargWalker) {m₀ m : Machine} (h : SameView m₀ m) :
    ∃ m' w', w.nextInt.run m = (m', .ok ((w.int m₀).1, w')) ∧ SameView m₀ m' ∧
      w'.toArgCursor = (w.int m₀).2 := by
  rw [← h.int]
  unfold nextInt ArgCursor.int
  split
  · exact ⟨_, _, exec_bind_readGpr _ _ _ m, h.trans (.readGpr m w.gpIdx true), rfl⟩
  · obtain ⟨w', hrun, hw'⟩ := w.run_nextSpill m
    exact ⟨m, w', hrun, h, hw'⟩

theorem run_nextDouble (w : VarargWalker) {m₀ m : Machine} (h : SameView m₀ m) :
    ∃ m' w', w.nextDouble.run m = (m', .ok ((w.double m₀).1, w')) ∧ SameView m₀ m' ∧
      w'.toArgCursor = (w.double m₀).2 := by
  rw [← h.double]
  unfold nextDouble ArgCursor.double
  split
  · exact ⟨_, _, rfl, h.trans ⟨RegisterFile.values_readFprBits m.regs w.fpIdx, rfl, rfl⟩, rfl⟩
  · obtain ⟨w', hrun, hw'⟩ := w.run_nextSpill m
    exact ⟨m, w', hrun, h, hw'⟩

end VarargWalker

end Hosted

end Playground
