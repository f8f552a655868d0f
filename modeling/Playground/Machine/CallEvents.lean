/-
The call stack over whole runs of calls and returns: its depth and the call tree's books
agree whatever happens, and a run that nests well is tracked exactly.
-/
import Playground.Machine.CallTreeAccount

namespace Playground

/-- What can happen to the call stack. -/
inductive CallEvent
  | start (entry : Word) (regs : Fin 32 → Word)
  | call (pc target : Word) (intoProgram : Bool) (regs : Fin 32 → Word) (mem : Memory)
  | runtimeCall (stubPc target : Word) (regs : Fin 32 → Word)
  | ret (pc target : Word) (step : Nat) (regs : Fin 32 → Word) (x0Width : Nat)

namespace CallEvent

/-- The call stack after an event, with the step's undo log if one is open. -/
def run (s : CallStack) (log : Option FrameUndo) : CallEvent → CallStack
  | start entry regs => CallStack.start entry regs
  | call pc target intoProgram regs mem => (s.onCall pc target intoProgram regs mem log).1
  | runtimeCall stubPc target regs => (s.onRuntimeCall stubPc target regs log).1
  | ret pc target step regs x0Width => (s.onReturn pc target step regs x0Width log).1.1

def entered (n : Nat) : CallEvent → Nat
  | start _ _ => 0
  | call _ _ intoProgram _ _ => if intoProgram then n + 1 else n
  | runtimeCall _ _ _ => n + 1
  | ret _ _ _ _ _ => n

end CallEvent

/-- A call stack some sequence of events leads to, with the calls entered since the last
start. -/
inductive CallRun : CallStack → Nat → Prop
  | start (entry : Word) (regs : Fin 32 → Word) : CallRun (CallStack.start entry regs) 0
  | event {s : CallStack} {n : Nat} (h : CallRun s n) (e : CallEvent) (log : Option FrameUndo) :
      CallRun (e.run s log) (e.entered n)

namespace CallStack

/-- The books: each activation is open in the tree or outside it, each call made is kept
or dropped, and no more are open than were made. -/
structure Accounted (s : CallStack) (entered : Nat) : Prop where
  tree : s.tree.Consistent
  open_eq : s.tree.openTotal = s.acts.length + s.uncounted
  calls_eq : s.tree.callTotal = 1 + entered
  depth_le : s.acts.length + s.uncounted ≤ 1 + entered

variable {s : CallStack} {n : Nat}

theorem accounted_start (entry : Word) (regs : Fin 32 → Word) :
    (start entry regs).Accounted 0 :=
  ⟨CallTree.consistent_start entry (regs 0), rfl, rfl, le_rfl⟩

/-- What settling a caller leaves alone. -/
structure SameBooks (s s' : CallStack) : Prop where
  tree : s'.tree = s.tree
  length : s'.acts.length = s.acts.length
  uncounted : s'.uncounted = s.uncounted

theorem sameBooks_mark (s : CallStack) (record : Word) (flags : BitVec 8) (lastRet : Word)
    (log : Option FrameUndo) : SameBooks s (s.mark record flags lastRet log).1 := by
  unfold mark
  simp only
  split
  · exact ⟨rfl, rfl, rfl⟩
  · exact ⟨rfl, by simp [revertMark], rfl⟩

theorem sameBooks_settleCaller (s : CallStack) (pc sp fp : Word) (mem : Memory)
    (log : Option FrameUndo) : SameBooks s (s.settleCaller pc sp fp mem log).1 := by
  unfold settleCaller
  split
  · simp only
    split
    · exact sameBooks_mark s _ _ _ log
    · exact ⟨rfl, rfl, rfl⟩
  · exact ⟨rfl, rfl, rfl⟩

theorem Accounted.same (h : s.Accounted n) {s' : CallStack} (hsame : SameBooks s s') :
    s'.Accounted n := by
  obtain ⟨htree, hlength, huncounted⟩ := hsame
  refine ⟨htree ▸ h.tree, ?_, htree ▸ h.calls_eq, ?_⟩
  · rw [htree, hlength, huncounted]
    exact h.open_eq
  · rw [hlength, huncounted]
    exact h.depth_le

theorem accounted_push (h : s.Accounted n) (a : Activation) (x0 : Word)
    (log : Option FrameUndo) : (s.push a x0 log).1.Accounted (n + 1) := by
  obtain ⟨htree, hopen, hcalls⟩ :=
    CallTree.enter_spec h.tree a.entry x0 (log.map FrameUndo.tree)
  have hopenEq := h.open_eq
  have hcallsEq := h.calls_eq
  have hdepth := h.depth_le
  unfold push onTree
  simp only
  split
  · refine ⟨htree, ?_, ?_, ?_⟩ <;> simp only <;> omega
  · refine ⟨htree, ?_, ?_, ?_⟩ <;> simp only [List.length_append, List.length_cons,
      List.length_nil] <;> omega

theorem accounted_onCall (h : s.Accounted n) (pc target : Word) (intoProgram : Bool)
    (regs : Fin 32 → Word) (mem : Memory) (log : Option FrameUndo) :
    (s.onCall pc target intoProgram regs mem log).1.Accounted
      (if intoProgram then n + 1 else n) := by
  have hsettled := h.same (sameBooks_settleCaller s pc (regs 31) (regs 29) mem log)
  unfold onCall
  simp only
  cases intoProgram with
  | true => exact accounted_push hsettled _ _ _
  | false => exact hsettled

/-- Removing the innermost activations closes a call for each. -/
theorem accounted_unwind (h : s.Accounted n) (k : Nat) (x0 : Word) (x0Width : Nat)
    (log : Option FrameUndo) : (s.unwind k x0 x0Width log).1.Accounted n := by
  induction k generalizing s log with
  | zero => exact h
  | succ k ih =>
      unfold unwind
      split
      · exact h
      · next a hlast =>
          have hpos : 0 < s.acts.length := by
            apply List.length_pos_of_ne_nil
            intro hnil
            simp [hnil] at hlast
          have hopenEq := h.open_eq
          have hdepth := h.depth_le
          obtain ⟨htree, hopen, hcalls⟩ := CallTree.leave_spec h.tree (by omega) x0 x0Width
            ((log.map fun log => { log with removed := log.removed ++ [a] }).map FrameUndo.tree)
          simp only [onTree]
          apply ih
          refine ⟨htree, ?_, hcalls.trans h.calls_eq, ?_⟩
          · simp only [List.length_dropLast]
            omega
          · simp only [List.length_dropLast]
            omega

theorem accounted_onReturn (h : s.Accounted n) (pc target : Word) (step : Nat)
    (regs : Fin 32 → Word) (x0Width : Nat) (log : Option FrameUndo) :
    (s.onReturn pc target step regs x0Width log).1.1.Accounted n := by
  unfold onReturn
  split
  · next huncounted =>
      have hopenEq := h.open_eq
      have hdepth := h.depth_le
      obtain ⟨htree, hopen, hcalls⟩ := CallTree.leave_spec h.tree (by omega) (regs 0) x0Width
        (log.map FrameUndo.tree)
      refine ⟨htree, ?_, hcalls.trans h.calls_eq, ?_⟩
      · simp only [onTree]
        omega
      · simp only [onTree]
        omega
  · split
    · split
      · exact accounted_unwind h 1 _ _ _
      · split
        · exact accounted_unwind h _ _ _ _
        · exact ⟨h.tree, h.open_eq, h.calls_eq, h.depth_le⟩
    · exact ⟨h.tree, h.open_eq, h.calls_eq, h.depth_le⟩

theorem accounted_event (h : s.Accounted n) (e : CallEvent) (log : Option FrameUndo) :
    (e.run s log).Accounted (e.entered n) := by
  cases e with
  | start entry regs => exact accounted_start entry regs
  | call pc target intoProgram regs mem =>
      exact accounted_onCall h pc target intoProgram regs mem log
  | runtimeCall stubPc target regs => exact accounted_push h _ _ _
  | ret pc target step regs x0Width => exact accounted_onReturn h pc target step regs x0Width log

/-- No counter of the tree is past a bound. -/
structure CountersWithin (s : CallStack) (bound : Nat) : Prop where
  calls : ∀ node ∈ s.tree.nodes, node.calls ≤ bound
  openCalls : ∀ node ∈ s.tree.nodes, node.openCalls ≤ bound
  outside : s.tree.outside ≤ bound
  dropped : s.tree.dropped ≤ bound

theorem Accounted.countersWithin (h : s.Accounted n) : s.CountersWithin (1 + n) := by
  have hopen := h.open_eq
  have hcalls := h.calls_eq
  have hdepth := h.depth_le
  unfold CallTree.openTotal at hopen
  unfold CallTree.callTotal at hcalls
  refine ⟨fun node hnode => ?_, fun node hnode => ?_, by omega, by omega⟩
  · have hle := List.le_sum_of_mem (List.mem_map_of_mem (f := CallNode.calls) hnode)
    omega
  · have hle := List.le_sum_of_mem (List.mem_map_of_mem (f := CallNode.openCalls) hnode)
    omega

/-- Call stack and call tree agree after every sequence of events.  The source counts in 32
bits, which hold every counter as long as fewer than `2 ^ 32 - 1` calls have been entered. -/
theorem accounted_of_callRun (h : CallRun s n) : s.Accounted n ∧ s.CountersWithin (1 + n) := by
  have haccounted : s.Accounted n := by
    induction h with
    | start entry regs => exact accounted_start entry regs
    | event _ e log ih => exact accounted_event ih e log
  exact ⟨haccounted, haccounted.countersWithin⟩

/-- Registers that are all one value. -/
def flatRegs (value : Word) : Fin 32 → Word := fun _ => value

/-- Six calls of one function inside each other, a library call, a comparator's call and return,
a return, and one past the five calls that are left. -/
def foldedEvents : List CallEvent :=
  .call 0x400008 0x400100 true (flatRegs 7) Memory.new ::
      List.replicate 5 (.call 0x400108 0x400100 true (flatRegs 7) Memory.new) ++
    [.call 0x40010C 0x500000 false (flatRegs 7) Memory.new,
      .runtimeCall 0x600000 0x400200 (flatRegs 0x600004),
      .ret 0x400204 0x600004 20 (flatRegs 7) 8, .ret 0x400110 0x40010C 21 (flatRegs 7) 8,
      .ret 0x400110 0x40000C 22 (flatRegs 7) 8]

def runAll (s : CallStack) (events : List CallEvent) : CallStack :=
  events.foldl (fun s e => e.run s none) s

theorem runAll_concat (s : CallStack) (events : List CallEvent) (e : CallEvent) :
    s.runAll (events ++ [e]) = e.run (s.runAll events) none := by
  rw [runAll, List.foldl_append]
  rfl

theorem callRun_runAll (h : CallRun s n) (events : List CallEvent) :
    CallRun (s.runAll events) (events.foldl (fun n e => e.entered n) n) := by
  induction events generalizing s n with
  | nil => exact h
  | cons e events ih => exact ih (.event h e none)

/-- The fifth node stands for the last two of the six calls; after the seventh node's, of the
comparator, all have returned. -/
theorem accounted_of_callRun_folded :
    ((start 0x400000 (flatRegs 7)).runAll foldedEvents).tree.nodes.map
        (fun node => (node.calls, node.openCalls)) =
      [(1, 1), (1, 0), (1, 0), (1, 0), (1, 0), (2, 0), (1, 0)] ∧
    ((start 0x400000 (flatRegs 7)).runAll foldedEvents).Accounted 7 ∧
    ((start 0x400000 (flatRegs 7)).runAll foldedEvents).CountersWithin 8 :=
  ⟨by decide, accounted_of_callRun (callRun_runAll (.start 0x400000 (flatRegs 7)) foldedEvents)⟩

end CallStack

end Playground
