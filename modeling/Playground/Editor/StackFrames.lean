/-
The stack frames view: a frame drawn as boxes, one per saved register, local, array element
and gap, and the box an address lands in.
-/
import Playground.Editor.WholeNumbers

namespace Playground

namespace StackFrames

open WholeNumbers

/-- The write that changed a caller's saved fp or lr. -/
structure FrameHit where
  pc : Int
deriving DecidableEq, Repr

/-- How a drawn frame stands. -/
def stateComplete : Nat := 0

def stateEntered : Nat := 1

def stateReserved : Nat := 2

def stateLeaf : Nat := 3

def stateNonstandard : Nat := 4

def stateNoRecord : Nat := 5

/-- The flag of a call qsort or bsearch made to compare two elements. -/
def runtimeCall : Nat := 2

/-- One call. The addresses are doubles that hold whole numbers. -/
structure FrameRow where
  index : Nat
  entry : Int
  callPc : Int
  retAddr : Int
  /-- The frame owns `[lo, spEntry)`. -/
  spEntry : Int
  lo : Int
  fpEntry : Int
  /-- Where the frame record sits, 0 for none. -/
  record : Int
  state : Nat
  flags : Nat
  fpHit : Option FrameHit
  lrHit : Option FrameHit
deriving DecidableEq, Repr

structure FramesSnapshot where
  uncounted : Nat
  hidden : Nat
  hiddenEntry : Int
  frames : List FrameRow
deriving DecidableEq, Repr

/-- A load or store target at a fixed offset from a function's frame record. -/
structure FrameSlot where
  offset : Int
  width : Int
  float : Bool
  name : Option (List Char)
  field : Option (List Char)
deriving DecidableEq, Repr

/-- An array of `width`-byte elements at `offset`. -/
structure FrameArray where
  offset : Int
  width : Int
  name : Option (List Char)
deriving DecidableEq, Repr

structure FunctionLayout where
  entry : Int
  name : Option (List Char)
  slots : List FrameSlot
  arrays : List FrameArray
deriving DecidableEq, Repr

structure FrameLayout where
  functions : List FunctionLayout
deriving DecidableEq, Repr

inductive BoxKind where
  | saved
  | local
  | padding
  | reserved
deriving DecidableEq, Repr

/-- Where a frame's offsets count from. -/
structure Base where
  at_ : Int
  name : List Char
deriving DecidableEq, Repr

structure StackBox where
  addr : Int
  size : Int
  offset : List Char
  kind : BoxKind
  title : List Char
  name : Option (List Char)
  detail : List Char
  overwritten : Bool
  wrote : Bool
  marker : List Char
deriving DecidableEq, Repr

structure DrawnFrame where
  index : Nat
  name : List Char
  bytes : Int
  source : Option (List Char)
  state : Option (List Char)
  base : Base
  boxes : List StackBox
deriving DecidableEq, Repr

structure DrawnStack where
  frames : List DrawnFrame
  folded : Option (List Char)
  untracked : Option (List Char)
  depth : Nat
deriving DecidableEq, Repr

/-- Bytes read from the stack for one drawing. -/
structure StackBytes where
  addr : Int
  bytes : List (BitVec 8)
deriving DecidableEq, Repr

structure MemoryRegion where
  name : List Char
  start : Int
  stop : Int
deriving DecidableEq, Repr

structure DrawInput where
  snapshot : FramesSnapshot
  layout : Option FrameLayout
  sp : Int
  fp : Int
  pc : Int
  memory : List StackBytes
  /-- The last step's writes, as `(addr, len)`. -/
  written : List (Int × Int)
  regions : List MemoryRegion
  lineLabel : Int → Option (List Char)
  /-- A float's decimal, by its bits and their number. -/
  floatText : Nat → Nat → List Char

def stateWords (state : Nat) : Option (List Char) :=
  if state = stateEntered then some "just entered, nothing pushed yet".toList
  else if state = stateReserved then some "frame reserved, fp not set yet".toList
  else if state = stateLeaf then some "leaf: no frame of its own".toList
  else if state = stateNonstandard then some "nonstandard frame".toList
  else if state = stateNoRecord then some "no frame record".toList
  else none

/-- An array draws at most this many elements; the rest fold into one box. -/
def maxElements : Nat := 32

def decimal (n : Int) : List Char := (toString n).toList

/-- At least 8 hexadecimal digits. -/
def hex (value : Int) : List Char :=
  let digits := Nat.toDigits 16 value.natAbs
  let signed := if value < 0 then '-' :: digits else digits
  "0x".toList ++ List.replicate (8 - signed.length) '0' ++ signed

/-- A decimal's digits, last first, with a comma before every third. -/
def grouped : List Char → List Char
  | a :: b :: c :: d :: rest => a :: b :: c :: ',' :: grouped (d :: rest)
  | digits => digits

def count (n : Int) : List Char :=
  let digits := (grouped (decimal n.natAbs).reverse).reverse
  if n < 0 then '-' :: digits else digits

def plural (n : Int) (word : List Char) : List Char :=
  count n ++ ' ' :: word ++ if n = 1 then [] else ['s']

/-- "fp + 16", "sp + 8", "fp - 16". -/
def offsetText (addr : Int) (base : Base) : List Char :=
  let delta := rounded (addr - base.at_)
  base.name ++ ' ' :: (if delta < 0 then '-' else '+') :: ' ' :: decimal delta.natAbs

def bytesAt (memory : List StackBytes) (addr size : Int) : Option (List (BitVec 8)) :=
  memory.findSome? fun span =>
    let start := rounded (addr - span.addr)
    if 0 ≤ start ∧ rounded (start + size) ≤ span.bytes.length then
      some ((span.bytes.drop start.toNat).take size.toNat)
    else none

def littleEndian (bytes : List (BitVec 8)) : Nat :=
  bytes.foldr (fun byte value => 256 * value + byte.toNat) 0

def wordAt (memory : List StackBytes) (addr : Int) : Option Nat :=
  (bytesAt memory addr 8).map littleEndian

def intKinds (width : Int) : Option (List Char) :=
  if width = 1 then some "char".toList
  else if width = 2 then some "short".toList
  else if width = 4 then some "int".toList
  else if width = 8 then some "long".toList
  else none

def regionFor (addr : Int) (regions : List MemoryRegion) : Option MemoryRegion :=
  regions.find? fun region => decide (region.start ≤ addr ∧ addr < region.stop)

/-- The bits as a two's-complement integer of `bits` bits. -/
def signedReading (value bits : Nat) : List Char :=
  let pattern := value % 2 ^ bits
  decimal (if 2 ^ (bits - 1) ≤ pattern then (pattern : Int) - 2 ^ bits else pattern)

/-- The C type `width` bytes read as, and their value. -/
def typed (floatText : Nat → Nat → List Char) (bits : Option Nat) (width : Int) (float : Bool)
    (regions : List MemoryRegion) : Option (List Char) × Option (List Char) :=
  if float ∧ (width = 4 ∨ width = 8) then
    (some (if width = 4 then "float".toList else "double".toList),
      bits.map (floatText · (8 * width).toNat))
  else if width = 8 ∧ bits.any fun b => decide (b < 2 ^ 53) && (regionFor b regions).isSome then
    (some "pointer".toList, bits.map fun b => hex b)
  else
    match intKinds width with
    | none => (none, bits.map fun b => hex b)
    | some kind => (some kind, bits.map (signedReading · (8 * width).toNat))

/-- One named place in a frame: a slot, or one element of an array. -/
structure Item where
  offset : Int
  width : Int
  float : Bool
  label : List Char
  name : Option (List Char)
  /-- Set on the box that stands for the elements past the drawn ones: how many, and how
  wide each is. -/
  more : Option (Int × Int)
deriving DecidableEq, Repr

/-- Where an array ends: at the next name above it, or the frame's top. -/
def arrayEnd (fn : FunctionLayout) (top : Int) (array : FrameArray) : Int :=
  ((fn.slots.map FrameSlot.offset ++ fn.arrays.map FrameArray.offset).filter
    fun o => decide (array.offset < o)).foldl min top

/-- The whole elements up to there. -/
def arrayCount (fn : FunctionLayout) (top : Int) (array : FrameArray) : Nat :=
  floorDiv (rounded (arrayEnd fn top array - array.offset)).toNat array.width.toNat

def indexed (name : List Char) (k : Int) : List Char := name ++ '[' :: decimal k ++ [']']

/-- Where the element `k` starts. -/
def elementOffset (array : FrameArray) (k : Nat) : Int :=
  rounded (array.offset + rounded (k * array.width))

def elementItem (array : FrameArray) (k : Nat) : Item :=
  let label := indexed (array.name.getD "array".toList) k
  ⟨elementOffset array k, array.width, false, label, some label, none⟩

/-- The box of the elements past the drawn ones. -/
def restItem (array : FrameArray) (count : Nat) : Item :=
  let name := array.name.getD "array".toList
  let rest := rounded (count - maxElements)
  ⟨elementOffset array maxElements, rounded (rest * array.width), false,
    indexed name maxElements ++ " to ".toList ++ indexed name (rounded (count - 1)), none,
    some (rest, array.width)⟩

def arrayItems (fn : FunctionLayout) (top : Int) (array : FrameArray) : List Item :=
  let count := arrayCount fn top array
  (List.range (min count maxElements)).map (elementItem array) ++
    if maxElements < count then [restItem array count] else []

def slotItem (slot : FrameSlot) : Item :=
  let label :=
    match slot.field with
    | some (c :: field) => slot.name.getD ['?'] ++ '.' :: c :: field
    | _ => slot.name.getD ("[fp, ".toList ++ decimal slot.offset ++ [']'])
  -- an empty name stays empty
  ⟨slot.offset, slot.width, slot.float, label,
    slot.name.map fun name => if name = [] then [] else label, none⟩

/-- Drop what overlaps the last item kept, or runs past the top. -/
def keepItems (top stop : Int) : List Item → List Item
  | [] => []
  | item :: items =>
      let above := rounded (item.offset + item.width)
      if item.offset < stop ∨ top < above then keepItems top stop items
      else item :: keepItems top above items

/-- The function's named places inside the frame, lowest first, none overlapping another.
The sort keeps an array's element ahead of a slot at the same offset. -/
def itemsOf (fn : Option FunctionLayout) (top : Int) : List Item :=
  match fn with
  | none => []
  | some fn =>
      keepItems top 16
        ((fn.arrays.flatMap (arrayItems fn top) ++ fn.slots.map slotItem).insertionSort
          fun a b => a.offset ≤ b.offset)

section Draw

variable (input : DrawInput)

def fnAt (entry : Int) : Option FunctionLayout :=
  input.layout.bind fun layout => layout.functions.find? fun f => decide (f.entry = entry)

def nameOf (entry : Int) : List Char :=
  ((fnAt input entry).bind FunctionLayout.name).getD (hex entry)

def overwrittenText (hit : FrameHit) : List Char :=
  match input.lineLabel hit.pc with
  | some line => if line = [] then "overwritten".toList else "overwritten by ".toList ++ line
  | none => "overwritten".toList

def frameName (record : Int) : List Char :=
  match input.snapshot.frames.find? fun r => decide (r.record = record) with
  | some owner => nameOf input owner.entry
  | none =>
      if 0 < input.snapshot.hidden ∧ input.snapshot.hiddenEntry ≠ 0 then
        nameOf input input.snapshot.hiddenEntry
      else "the caller".toList

def box (addr size : Int) (base : Base) (kind : BoxKind) (title : List Char)
    (name : Option (List Char)) (detail : List Char) (overwritten : Bool) : StackBox :=
  let above := rounded (addr + size)
  let inside := fun reg : Int => decide (addr ≤ reg ∧ reg < above)
  { addr := addr
    size := size
    offset := offsetText addr base
    kind := kind
    title := title
    name := name
    detail := detail
    overwritten := overwritten
    wrote := input.written.any fun w => decide (w.1 < above ∧ addr < rounded (w.1 + w.2))
    marker := List.intercalate ", ".toList
      ((if inside input.sp then ["sp".toList] else []) ++
        if inside input.fp then ["fp".toList] else []) }

def hasRecord (row : FrameRow) : Bool :=
  decide (row.record ≠ 0 ∧ row.lo ≤ row.record ∧ rounded (row.record + 16) ≤ row.spEntry)

def frameBase (row : FrameRow) : Base :=
  if hasRecord row ∧ row.state ≠ stateReserved then ⟨row.record, "fp".toList⟩
  else ⟨input.sp, "sp".toList⟩

/-- Bytes from `addr` that only an offset names, as many as from `lo` to `hi`, none when that
span is empty. -/
def gapBox (kind : BoxKind) (title : List Char) (addr lo hi : Int) (base : Base) :
    List StackBox :=
  if lo < hi then
    let size := rounded (hi - lo)
    [box input addr size base kind title none (plural size "byte".toList) false]
  else []

def reservedBox (lo hi : Int) (base : Base) : List StackBox :=
  gapBox input .reserved "reserved".toList lo lo hi base

/-- From the offset `gap` of a frame's record up to the offset `stop`. -/
def paddingBox (row : FrameRow) (gap stop : Int) (base : Base) : List StackBox :=
  gapBox input .padding "padding".toList (rounded (row.record + gap)) gap stop base

def savedFpBox (row : FrameRow) (base : Base) : StackBox :=
  let savedFp := wordAt input.memory row.record
  let changed := savedFp.any fun word => decide ((word : Int) ≠ row.fpEntry)
  let text :=
    if changed then hex (savedFp.getD 0)
    else if row.fpEntry = 0 then "0, no caller frame".toList
    else frameName input row.fpEntry ++ "'s frame".toList
  match if changed then row.fpHit else none with
  | some hit =>
      box input row.record 8 base .saved "saved fp (x29)".toList (some "saved fp".toList)
        (text ++ " · ".toList ++ overwrittenText input hit) true
  | none =>
      box input row.record 8 base .saved "saved fp (x29)".toList (some "saved fp".toList) text
        false

def savedLrBox (row : FrameRow) (base : Base) : StackBox :=
  let addr := rounded (row.record + 8)
  let savedLr := wordAt input.memory addr
  let changed := savedLr.any fun word => decide ((word : Int) ≠ row.retAddr)
  let text :=
    if changed then
      hex (savedLr.getD 0) ++ " (".toList ++
        (input.lineLabel (rounded (savedLr.getD 0))).getD "not code".toList ++ [')']
    else if row.flags &&& runtimeCall ≠ 0 then "back to qsort or bsearch".toList
    else "back to ".toList ++ (input.lineLabel row.retAddr).getD "the C runtime".toList
  match if changed then row.lrHit else none with
  | some hit =>
      box input addr 8 base .saved "saved lr (x30)".toList (some "saved lr".toList)
        (text ++ " · ".toList ++ overwrittenText input hit) true
  | none =>
      box input addr 8 base .saved "saved lr (x30)".toList (some "saved lr".toList)
        text false

def itemBox (row : FrameRow) (base : Base) (item : Item) : StackBox :=
  let addr := rounded (row.record + item.offset)
  let size := plural item.width "byte".toList
  match item.more with
  | some (rest, width) =>
      let each := (intKinds width).getD "element".toList
      box input addr item.width base .local item.label item.name
        (plural rest ("more ".toList ++ each) ++ ", ".toList ++ size) false
  | none =>
      let read := typed input.floatText ((bytesAt input.memory addr item.width).map littleEndian)
        item.width item.float input.regions
      let title :=
        match read.2 with
        | none => item.label
        | some value => item.label ++ " = ".toList ++ value
      box input addr item.width base .local title item.name
        (match read.1 with
          | some kind => kind ++ ", ".toList ++ size
          | none => size) false

/-- The items from `gap` on, with padding between them and up to the top. -/
def localBoxes (row : FrameRow) (base : Base) (gap : Int) : List Item → List StackBox
  | [] => paddingBox input row gap (rounded (row.spEntry - row.record)) base
  | item :: items =>
      paddingBox input row gap item.offset base ++
        itemBox input row base item ::
          localBoxes row base (rounded (item.offset + item.width)) items

def frameBoxes (row : FrameRow) : List StackBox :=
  let base := frameBase input row
  if hasRecord row then
    reservedBox input row.lo row.record base ++
      savedFpBox input row base :: savedLrBox input row base ::
        localBoxes input row base 16
          (itemsOf (fnAt input row.entry) (rounded (row.spEntry - row.record)))
  else reservedBox input row.lo row.spEntry base

def drawFrame (row : FrameRow) (innermost : Bool) : DrawnFrame :=
  let released := innermost && row.state == stateEntered && input.pc != row.entry
  { index := row.index
    name := nameOf input row.entry
    bytes := rounded (row.spEntry - row.lo)
    source :=
      if row.index = 0 then none
      else if row.flags &&& runtimeCall ≠ 0 then some "called by qsort or bsearch".toList
      else (input.lineLabel row.callPc).map fun line =>
        if line = [] then [] else "called from ".toList ++ line
    state := if released then some "frame released, ret comes next".toList else stateWords row.state
    base := frameBase input row
    boxes := (frameBoxes input row).reverse }

def drawFrames : DrawnStack :=
  let snapshot := input.snapshot
  let rows := snapshot.frames
  { frames := rows.zipIdx.map fun row => drawFrame input row.1 (row.2 + 1 == rows.length)
    folded :=
      if 0 < snapshot.hidden then
        some (plural snapshot.hidden "more call".toList ++
          if snapshot.hiddenEntry ≠ 0 then " of ".toList ++ nameOf input snapshot.hiddenEntry
          else [])
      else none
    untracked :=
      if 0 < snapshot.uncounted then
        some (plural snapshot.uncounted "deeper frame".toList ++
          " not recorded: the playground records frames only this deep".toList)
      else none
    depth := rows.length + snapshot.hidden + snapshot.uncounted }

end Draw

/-- Where an address lands: the box's name and how far in, whose frame it is, and the address
as an offset in that frame. -/
structure SlotAt where
  slot : List Char
  owner : List Char
  index : Nat
  offset : List Char
deriving DecidableEq, Repr

def boxAt (frame : DrawnFrame) (addr : Int) : Option StackBox :=
  frame.boxes.find? fun b => decide (b.addr ≤ addr ∧ addr < rounded (b.addr + b.size))

def slotIn (frame : DrawnFrame) (addr : Int) : Option SlotAt :=
  (boxAt frame addr).map fun b =>
    let into := rounded (addr - b.addr)
    let offset := offsetText addr frame.base
    let slot :=
      match b.name with
      | none => offset
      | some name => if into = 0 then name else name ++ " + ".toList ++ decimal into
    ⟨slot, frame.name, frame.index, offset⟩

def slotAt (stack : DrawnStack) (addr : Int) : Option SlotAt :=
  stack.frames.findSome? (slotIn · addr)

end StackFrames

end Playground
