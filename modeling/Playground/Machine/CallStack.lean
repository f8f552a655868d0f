/-
The shadow call stack behind the stack frames view: one record per call the
program is inside, pushed when a call enters the program's own code and popped
by the return that comes back.
-/
import Playground.Machine.CallTree
import Playground.Machine.Memory

namespace Playground

/-- Most activations recorded; past this calls are only counted. -/
def maxActivations : Nat := 16384

/-- How far below the top a `ret` looks for the call it returns from. -/
def unwindSearch : Nat := 64

/-- It called out before it had stored x30 anywhere. -/
def lrUnsaved : BitVec 8 := 1

/-- `qsort` or `bsearch` entered it to compare two elements. -/
def runtimeCall : BitVec 8 := 2

def lrStored : BitVec 8 := 4

/-- The latest write that changed one slot of a caller's frame record. -/
structure Hit where
  step : Nat
  pc : Word
  fpOffset : Int
deriving DecidableEq, Repr

instance : Inhabited Hit := ⟨⟨0, 0, 0⟩⟩

/-- One call the program is inside, as the call left the machine.  `watch` is one
more than the index of the nearest caller with a frame record, 0 for none. -/
structure Activation where
  entry : Word
  callPc : Word
  retAddr : Word
  spEntry : Word
  fpEntry : Word
  saved : List Word
  record : Word
  watch : Nat
  flags : BitVec 8
  lastRet : Word
  fpHit : Hit
  lrHit : Hit
deriving DecidableEq, Repr

instance : Inhabited Activation :=
  ⟨⟨0, 0, 0, 0, 0, List.replicate 10 0, 0, 0, 0, 0, default, default⟩⟩

/-- A `ret` that went to no caller's return address. -/
structure BadReturn where
  step : Nat
  pc : Word
  target : Word
  index : Nat
  entry : Word
  retAddr : Word
  flags : BitVec 8
  lastRet : Word
  lrHit : Hit
deriving DecidableEq, Repr

instance : Inhabited BadReturn := ⟨⟨0, 0, 0, 0, 0, 0, 0, 0, default⟩⟩

/-- The calls the program is inside, main first. -/
structure CallStack where
  acts : List Activation
  uncounted : Nat
  badReturn : BadReturn
  tree : CallTree
deriving DecidableEq, Repr

/-- What one step changed in the call stack: the small fields as they were, each
activation it removed (innermost first), and the old record, flags and last call,
or the old hits, of each one it changed in place. -/
structure FrameUndo where
  len : Nat
  uncounted : Nat
  badReturn : Option BadReturn
  removed : List Activation
  marked : List (Nat × Word × BitVec 8 × Word)
  hit : List (Nat × Hit × Hit)
  tree : TreeUndo

instance : Inhabited FrameUndo := ⟨⟨0, 0, none, [], [], [], default⟩⟩

/-- How the innermost activation's frame stands. -/
inductive Shape
  | bare
  | reserved
  | complete
  | nonstandard
deriving DecidableEq, Repr

/-- A frame record is the caller's fp, then this call's lr above it. -/
def holdsRecord (a : Activation) (mem : Memory) (base : Word) : Bool :=
  (mem.readU128 base).toOption = some (a.retAddr ++ a.fpEntry)

def shape (a : Activation) (sp fp : Word) (mem : Memory) : Shape :=
  if sp = a.spEntry ∧ fp = a.fpEntry then .bare
  else if fp ≠ a.fpEntry ∧ fp < a.spEntry ∧ holdsRecord a mem fp then .complete
  else if sp < a.spEntry ∧ fp = a.fpEntry ∧ holdsRecord a mem sp then .reserved
  else .nonstandard

/-- x19 to x28 out of a register snapshot. -/
def calleeSaved (regs : Fin 32 → Word) : List Word :=
  [regs 19, regs 20, regs 21, regs 22, regs 23, regs 24, regs 25, regs 26, regs 27, regs 28]

/-- Put back an activation's record, flags and last call. -/
def revertMark (entry : Nat × Word × BitVec 8 × Word) (acts : List Activation) :
    List Activation :=
  acts.modify entry.1 fun a =>
    { a with record := entry.2.1, flags := entry.2.2.1, lastRet := entry.2.2.2 }

/-- Put back an activation's hits. -/
def revertHit (entry : Nat × Hit × Hit) (acts : List Activation) : List Activation :=
  acts.modify entry.1 fun a => { a with fpHit := entry.2.1, lrHit := entry.2.2 }

namespace CallStack

def empty : CallStack := ⟨[], 0, default, CallTree.empty⟩

def depth (s : CallStack) : Nat := s.acts.length + s.uncounted

/-- A fresh program: its first function, entered at `entry` with the registers
the loader left. -/
def start (entry : Word) (regs : Fin 32 → Word) : CallStack where
  acts := [{ (default : Activation) with
    entry := entry, retAddr := regs 30, spEntry := regs 31, fpEntry := regs 29
    saved := calleeSaved regs }]
  uncounted := 0
  badReturn := default
  tree := CallTree.start entry (regs 0)

/-- Open a log for the step about to run. -/
def recordUndo (s : CallStack) : FrameUndo where
  len := s.acts.length
  uncounted := s.uncounted
  badReturn := none
  removed := []
  marked := []
  hit := []
  tree := CallTree.recordUndo

/-- Put back what the step `log` recorded changed. -/
def undoStep (s : CallStack) (log : FrameUndo) : CallStack where
  acts :=
    let acts := s.acts.take (log.len - log.removed.length) ++ log.removed.reverse
    Journal.revertAll revertHit log.hit (Journal.revertAll revertMark log.marked acts)
  uncounted := log.uncounted
  badReturn := log.badReturn.getD s.badReturn
  tree := s.tree.undoStep log.tree

/-- Run an operation on the tree against the tree's part of the log. -/
def onTree (s : CallStack) (log : Option FrameUndo)
    (op : CallTree → Option TreeUndo → CallTree × Option TreeUndo) :
    CallStack × Option FrameUndo :=
  let (tree, treeLog) := op s.tree (log.map FrameUndo.tree)
  ({ s with tree := tree },
    log.map fun log => { log with tree := treeLog.getD log.tree })

def push (s : CallStack) (a : Activation) (x0 : Word) (log : Option FrameUndo) :
    CallStack × Option FrameUndo :=
  let (s, log) := s.onTree log fun tree treeLog => tree.enter a.entry x0 treeLog
  if maxActivations ≤ s.acts.length then ({ s with uncounted := s.uncounted + 1 }, log)
  else
    let watch := match s.acts.getLast? with
      | some caller => if caller.record ≠ 0 then s.acts.length else caller.watch
      | none => a.watch
    ({ s with acts := s.acts ++ [{ a with watch := watch }] }, log)

/-- Set the innermost activation's record, flags and last call, logging the old
ones. -/
def mark (s : CallStack) (record : Word) (flags : BitVec 8) (lastRet : Word)
    (log : Option FrameUndo) : CallStack × Option FrameUndo :=
  let top := s.acts.length - 1
  match s.acts.getLast? with
  | none => (s, log)
  | some a =>
      ({ s with acts := revertMark (top, record, flags, lastRet) s.acts },
        log.map fun log => { log with
          marked := log.marked ++ [(top, a.record, a.flags, a.lastRet)] })

/-- Where the caller's record sits as a call leaves it, 0 for none. -/
def callerRecord (caller : Activation) (sp fp : Word) (mem : Memory) : Word :=
  match shape caller sp fp mem with
  | .complete => fp
  | .reserved => sp
  | _ => 0

/-- The flags a caller has once it calls out: lr went out unsaved unless it has
been stored. -/
def callerFlags (caller : Activation) : BitVec 8 :=
  if caller.flags &&& lrStored = 0 then caller.flags ||| lrUnsaved else caller.flags

/-- Note where the caller's record sits, the call's return address and whether lr
went out unsaved.  Past the cap the real caller is one the stack never recorded. -/
def settleCaller (s : CallStack) (pc sp fp : Word) (mem : Memory) (log : Option FrameUndo) :
    CallStack × Option FrameUndo :=
  match s.uncounted, s.acts.getLast? with
  | 0, some caller =>
      let record := callerRecord caller sp fp mem
      let flags := callerFlags caller
      let lastRet := pc + 4
      if (record, flags, lastRet) ≠ (caller.record, caller.flags, caller.lastRet) then
        s.mark record flags lastRet log
      else (s, log)
  | _, _ => (s, log)

/-- A `bl` or `blr` at `pc` just sent the program to `target`. -/
def onCall (s : CallStack) (pc target : Word) (intoProgram : Bool) (regs : Fin 32 → Word)
    (mem : Memory) (log : Option FrameUndo) : CallStack × Option FrameUndo :=
  let sp := regs 31
  let fp := regs 29
  let (s, log) := s.settleCaller pc sp fp mem log
  if intoProgram then
    s.push { (default : Activation) with
      entry := target, callPc := pc, retAddr := pc + 4, spEntry := sp, fpEntry := fp
      saved := calleeSaved regs } (regs 0) log
  else (s, log)

def onLrStore (s : CallStack) (log : Option FrameUndo) : CallStack × Option FrameUndo :=
  match s.uncounted, s.acts.getLast? with
  | 0, some a =>
      if a.flags &&& lrStored = 0 then s.mark a.record (a.flags ||| lrStored) a.lastRet log
      else (s, log)
  | _, _ => (s, log)

/-- `qsort` or `bsearch` at `stubPc` just sent the program to its comparator. -/
def onRuntimeCall (s : CallStack) (stubPc target : Word) (regs : Fin 32 → Word)
    (log : Option FrameUndo) : CallStack × Option FrameUndo :=
  s.push { (default : Activation) with
    entry := target, callPc := stubPc, retAddr := regs 30, spEntry := regs 31
    fpEntry := regs 29, saved := calleeSaved regs, flags := runtimeCall } (regs 0) log

/-- Remove the `n` innermost activations, leaving each of their nodes. -/
def unwind (s : CallStack) (n : Nat) (x0 : Word) (x0Width : Nat) (log : Option FrameUndo) :
    CallStack × Option FrameUndo :=
  match n with
  | 0 => (s, log)
  | n + 1 =>
      match s.acts.getLast? with
      | none => (s, log)
      | some a =>
          let log := log.map fun log => { log with removed := log.removed ++ [a] }
          let (s, log) := { s with acts := s.acts.dropLast }.onTree log
            fun tree treeLog => tree.leave x0 x0Width treeLog
          s.unwind n x0 x0Width log

/-- The callee-saved registers that differ from those at entry, bit N for xN. -/
def leftChanged (saved now : List Word) : BitVec 32 :=
  (List.range 10).foldl (fun mask j =>
    if now.getD j 0 ≠ saved.getD j 0 then mask ||| (1#32 <<< (19 + j)) else mask) 0

/-- Record a return that went to no caller, made by `call`. -/
def strayReturn (s : CallStack) (call : Activation) (pc target : Word) (step : Nat)
    (log : Option FrameUndo) : CallStack × Option FrameUndo :=
  ({ s with badReturn := ⟨step, pc, target, s.acts.length - 1, call.entry, call.retAddr,
      call.flags, call.lastRet, call.lrHit⟩ },
    log.map fun log => { log with badReturn := some s.badReturn })

/-- A `ret` (or `br x30`) at `pc` just sent the program to `target`.  Pops the
call it returns from, unwinding any it skipped; a return to no caller is recorded
and leaves the stack alone.  Returns the callee-saved registers left changed. -/
def onReturn (s : CallStack) (pc target : Word) (step : Nat) (regs : Fin 32 → Word)
    (x0Width : Nat) (log : Option FrameUndo) : (CallStack × Option FrameUndo) × BitVec 32 :=
  if 0 < s.uncounted then
    ({ s with uncounted := s.uncounted - 1 }.onTree log
      fun tree treeLog => tree.leave (regs 0) x0Width treeLog, 0)
  else
    match s.acts.reverse with
    | top :: _ =>
        if top.retAddr = target then
          (s.unwind 1 (regs 0) x0Width log,
            if top.callPc = 0 then 0 else leftChanged top.saved (calleeSaved regs))
        else
          match (s.acts.reverse.take unwindSearch).findIdx?
              (fun a => decide (a.retAddr = target)) with
          | some j => (s.unwind (j + 1) (regs 0) x0Width log, 0)
          | none => (s.strayReturn top pc target step log, 0)
    | [] => (s.strayReturn default pc target step log, 0)

/-- The hits of `a` after a write of `[addr, stop)`: a slot the write reached that
no longer holds what the call saved there takes `hit`. -/
def hitAt (mem : Memory) (addr : Word) (stop : Nat) (hit : Hit) (a : Activation) : Hit × Hit :=
  let lands (slot : Word) : Bool :=
    decide (addr.toNat < saturatingAdd slot.toNat 8) && decide (slot.toNat < stop)
  (if lands a.record ∧ (mem.readU64 a.record).toOption ≠ some a.fpEntry then hit else a.fpHit,
    if lands (a.record + 8) ∧ (mem.readU64 (a.record + 8)).toOption ≠ some a.retAddr then hit
    else a.lrHit)

/-- Up the chain of records from activation `at` to the first that starts at or
past `stop`.  A record's `watch` lies below it, so the chain is no longer than
the stack. -/
def walkRecords (mem : Memory) (addr : Word) (stop : Nat) (hit : Hit) :
    Nat → Option Nat → List Activation → Option FrameUndo →
      List Activation × Option FrameUndo
  | fuel + 1, some i, acts, log =>
      match acts[i]? with
      | none => (acts, log)
      | some a =>
          if stop ≤ a.record.toNat then (acts, log)
          else
            let hits := hitAt mem addr stop hit a
            let (acts, log) :=
              if hits ≠ (a.fpHit, a.lrHit) then
                (revertHit (i, hits) acts, log.map fun log =>
                  { log with hit := log.hit ++ [(i, a.fpHit, a.lrHit)] })
              else (acts, log)
            walkRecords mem addr stop hit fuel
              (if a.watch = 0 then none else some (a.watch - 1)) acts log
  | _, _, acts, log => (acts, log)

/-- An activation's record, or else the nearest above it. -/
def recordFrom (acts : List Activation) (a : Activation) : Nat :=
  if a.record ≠ 0 then a.record.toNat
  else if a.watch = 0 then 2 ^ 64 - 1
  else (acts.getD (a.watch - 1) default).record.toNat

/-- The lowest record that reaches past `addr`, among the first `nearest + 1`
activations. -/
def lowestReaching (acts : List Activation) (nearest : Nat) (addr : Word) : Option Nat :=
  let reaching := ((acts.take (nearest + 1)).takeWhile fun a =>
    decide (addr.toNat < saturatingAdd (recordFrom acts a) 16)).length
  if reaching = 0 then none
  else
    let a := acts.getD (reaching - 1) default
    if a.record = 0 then (if a.watch = 0 then none else some (a.watch - 1))
    else some (reaching - 1)

/-- One more than the index of the nearest caller with a record, 0 for none.  Past
the cap the recorded top is itself a caller. -/
def nearestRecord (s : CallStack) (top : Activation) : Nat :=
  if 0 < s.uncounted ∧ top.record ≠ 0 then s.acts.length else top.watch

/-- One write against every record it reaches. -/
def watchWrite (step : Nat) (mem : Memory) (writer : Word × Word) (nearest : Nat)
    (state : List Activation × Option FrameUndo) (write : Word × Nat) :
    List Activation × Option FrameUndo :=
  walkRecords mem write.1 (saturatingAdd write.1.toNat write.2)
    ⟨step, writer.1, (write.1 - writer.2).toInt⟩ state.1.length
    (lowestReaching state.1 nearest write.1) state.1 state.2

/-- The step's writes against every caller's frame record. -/
def watchWrites (s : CallStack) (writes : List (Word × Nat)) (step : Nat) (mem : Memory)
    (writer : Word × Word) (log : Option FrameUndo) : CallStack × Option FrameUndo :=
  match s.acts.getLast? with
  | none => (s, log)
  | some top =>
      let nearest := s.nearestRecord top
      if nearest = 0 then (s, log)
      else
        let floor := (s.acts.getD (nearest - 1) default).record.toNat
        if writes.all fun w => decide (saturatingAdd w.1.toNat w.2 ≤ floor) then (s, log)
        else
          let (acts, log) :=
            writes.foldl (watchWrite step mem writer (nearest - 1)) (s.acts, log)
          ({ s with acts := acts }, log)

end CallStack

end Playground
