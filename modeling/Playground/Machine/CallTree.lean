/-
The calls a program has made, as the small tree the stack frames view lists.
A run of calls to one function keeps its first few nodes and folds the rest into
one that counts them; calls past the node or depth cap are only counted.
-/
import Playground.Machine.Registers

namespace Playground

/-- Most nodes kept. -/
def maxTreeNodes : Nat := 200

/-- Most nodes from the program's first function down. -/
def maxTreeDepth : Nat := 12

/-- Calls of a run that keep a node of their own; the next one is the fold. -/
def runShown : Nat := 4

/-- One call, or the rest of a run in a fold.  `parent` and `latest` are one more
than a node's index, 0 for none. -/
structure CallNode where
  entry : Word
  parent : Nat
  latest : Nat
  run : Nat
  depth : Nat
  calls : Nat
  openCalls : Nat
  arg : Word
  ret : Word
  retWidth : Nat
deriving DecidableEq, Repr

instance : Inhabited CallNode := ⟨⟨0, 0, 0, 0, 0, 0, 0, 0, 0, 0⟩⟩

/-- It counts the rest of a run rather than one call. -/
def CallNode.folds (n : CallNode) : Bool := decide (runShown < n.run)

structure CallTree where
  nodes : List CallNode
  current : Nat
  outside : Nat
  dropped : Nat
deriving DecidableEq, Repr

/-- What one step changed in the tree: its small fields as they were at the
step's first change, and each node it changed, before the change. -/
structure TreeUndo where
  head : Option (Nat × Nat × Nat × Nat)
  nodes : List (Nat × CallNode)
deriving DecidableEq, Repr

instance : Inhabited TreeUndo := ⟨⟨none, []⟩⟩

/-- Put one logged node back. -/
def revertNode (entry : Nat × CallNode) (nodes : List CallNode) : List CallNode :=
  nodes.set entry.1 entry.2

namespace CallTree

def empty : CallTree := ⟨[], 0, 0, 0⟩

/-- A fresh program: its first function, entered at `entry` with `x0`. -/
def start (entry x0 : Word) : CallTree :=
  ⟨[{ (default : CallNode) with
      entry := entry, run := 1, depth := 1, calls := 1, openCalls := 1, arg := x0 }],
    1, 0, 0⟩

def recordUndo : TreeUndo := ⟨none, []⟩

def undoStep (t : CallTree) (log : TreeUndo) : CallTree :=
  match log.head with
  | none => t
  | some (len, current, outside, dropped) =>
      ⟨Journal.revertAll revertNode log.nodes (t.nodes.take len), current, outside, dropped⟩

/-- Note, before a change, the small fields once a step and node `index`. -/
def note (t : CallTree) (index : Option Nat) (log : TreeUndo) : TreeUndo :=
  { head := log.head <|> some (t.nodes.length, t.current, t.outside, t.dropped)
    nodes := match index with
      | some i => log.nodes ++ [(i, t.nodes.getD i default)]
      | none => log.nodes }

/-- Change node `i` in place. -/
def modify (t : CallTree) (i : Nat) (f : CallNode → CallNode) : CallTree :=
  { t with nodes := t.nodes.set i (f (t.nodes.getD i default)) }

def countCall (n : CallNode) : CallNode :=
  { n with calls := n.calls + 1, openCalls := n.openCalls + 1 }

/-- The innermost call, node `c`, calls a function that has no fold to join:
a new node, or a count once the tree is full. -/
def addCall (t : CallTree) (c : Nat) (entry x0 : Word) (run : Nat) (log : Option TreeUndo) :
    CallTree × Option TreeUndo :=
  let caller := t.nodes.getD c default
  if maxTreeNodes ≤ t.nodes.length ∨ maxTreeDepth ≤ caller.depth then
    ({ t with outside := 1, dropped := t.dropped + 1 }, log.map (t.note none))
  else
    let log := log.map (t.note (some c))
    let t := t.modify c fun n => { n with latest := t.nodes.length + 1 }
    let nodes := t.nodes ++ [⟨entry, c + 1, 0, min run (runShown + 1), caller.depth + 1,
      1, 1, x0, 0, 0⟩]
    ({ t with nodes := nodes, current := nodes.length }, log)

/-- The innermost call just called the function at `entry` with `x0`. -/
def enter (t : CallTree) (entry x0 : Word) (log : Option TreeUndo) :
    CallTree × Option TreeUndo :=
  if t.current = 0 ∨ t.outside ≠ 0 then
    ({ t with outside := t.outside + 1, dropped := t.dropped + 1 }, log.map (t.note none))
  else
    let c := t.current - 1
    let caller := t.nodes.getD c default
    if caller.folds ∧ caller.entry = entry then
      (t.modify c countCall, log.map (t.note (some c)))
    else if caller.latest ≠ 0 ∧ (t.nodes.getD (caller.latest - 1) default).entry = entry then
      let i := caller.latest - 1
      let prev := t.nodes.getD i default
      if prev.folds then
        ({ t.modify i countCall with current := i + 1 }, log.map (t.note (some i)))
      else t.addCall c entry x0 (prev.run + 1) log
    else if caller.entry = entry then t.addCall c entry x0 (caller.run + 1) log
    else t.addCall c entry x0 1 log

/-- One call of a node returned. -/
def closeCall (x0 : Word) (x0Width : Nat) (n : CallNode) : CallNode :=
  { n with openCalls := n.openCalls - 1, ret := x0, retWidth := x0Width }

/-- The innermost call just returned `x0`, last written `x0Width` bytes wide. -/
def leave (t : CallTree) (x0 : Word) (x0Width : Nat) (log : Option TreeUndo) :
    CallTree × Option TreeUndo :=
  if 0 < t.outside then
    ({ t with outside := t.outside - 1 }, log.map (t.note none))
  else if t.current = 0 then (t, log)
  else
    let c := t.current - 1
    let log := log.map (t.note (some c))
    let t := t.modify c (closeCall x0 x0Width)
    let node := t.nodes.getD c default
    (if node.openCalls = 0 then { t with current := node.parent } else t, log)

/-- The tree `t` with log `log` is partway through a step that began in `s`. -/
def Recorded (s t : CallTree) (log : TreeUndo) : Prop :=
  (log.head = none ∧ log.nodes = [] ∧ t = s) ∨
  (log.head = some (s.nodes.length, s.current, s.outside, s.dropped) ∧
    s.nodes.length ≤ t.nodes.length ∧
    Journal.Undoes revertNode s.nodes log.nodes (t.nodes.take s.nodes.length))

variable {s t : CallTree} {log : TreeUndo}

theorem recorded_recordUndo (t : CallTree) : Recorded t t recordUndo :=
  .inl ⟨rfl, rfl, rfl⟩

theorem undoStep_of_recorded (h : Recorded s t log) :
    t.undoStep log = s := by
  rcases h with ⟨hhead, -, rfl⟩ | ⟨hhead, -, hnodes⟩
  · simp [undoStep, hhead]
  · have hback : Journal.revertAll revertNode log.nodes (t.nodes.take s.nodes.length) =
        s.nodes := hnodes
    simp [undoStep, hhead, hback]

/-- A noted step keeps the way back: nodes may be added past the end, and only
the noted node may change. -/
theorem Recorded.noted {t' : CallTree} (h : Recorded s t log)
    {index : Option Nat} (hlen : t.nodes.length ≤ t'.nodes.length)
    (hnodes : ∀ n ≤ t.nodes.length, Journal.Undoes revertNode (t.nodes.take n)
      (index.elim [] fun i => [(i, t.nodes.getD i default)]) (t'.nodes.take n)) :
    Recorded s t' (t.note index log) := by
  have hlog : (t.note index log).nodes =
      log.nodes ++ index.elim [] fun i => [(i, t.nodes.getD i default)] := by
    cases index <;> simp [note]
  right
  rcases h with ⟨hhead, hempty, rfl⟩ | ⟨hhead, hle, hundo⟩
  · refine ⟨by simp [note, hhead], hlen, ?_⟩
    have hfirst := hnodes t.nodes.length le_rfl
    rw [List.take_length] at hfirst
    rw [hlog, hempty]
    exact hfirst
  · refine ⟨by simp [note, hhead], hle.trans hlen, ?_⟩
    rw [hlog]
    exact hundo.trans (hnodes _ hle)

theorem undoes_set_take {nodes : List CallNode} {i : Nat} (node : CallNode) (n : Nat) :
    Journal.Undoes revertNode (nodes.take n) [(i, nodes.getD i default)]
      ((nodes.set i node).take n) := by
  unfold Journal.Undoes
  rw [Journal.revertAll_cons, Journal.revertAll_nil, revertNode, List.take_set, List.set_set]
  apply List.ext_getElem?
  intro j
  rw [List.getElem?_set]
  split
  · next hij =>
      subst hij
      split
      · next hlt =>
          have hi : i < nodes.length := by
            rw [List.length_take] at hlt
            omega
          have hin : i < n := by
            rw [List.length_take] at hlt
            omega
          simp [hi, hin]
      · next hlt => rw [List.getElem?_eq_none (by omega)]
  · rfl

/-- Changing a noted node, and possibly adding nodes after it. -/
theorem Recorded.modify {t' : CallTree} (h : Recorded s t log) (i : Nat)
    (f : CallNode → CallNode) {more : List CallNode}
    (ht' : t'.nodes = (t.modify i f).nodes ++ more) : Recorded s t' (t.note (some i) log) := by
  refine h.noted (by simp [ht', CallTree.modify]) fun n hn => ?_
  rw [ht', List.take_append_of_le_length (by simpa [CallTree.modify] using hn)]
  exact undoes_set_take _ n

/-- Changing only the small fields. -/
theorem Recorded.small {t' : CallTree} (h : Recorded s t log)
    (ht' : t'.nodes = t.nodes) : Recorded s t' (t.note none log) :=
  h.noted (by rw [ht']) fun n _ => by rw [ht']; rfl

theorem Recorded.addCall (h : Recorded s t log) (c : Nat) (entry x0 : Word) (run : Nat) :
    ∃ log', (t.addCall c entry x0 run (some log)).2 = some log' ∧
      Recorded s (t.addCall c entry x0 run (some log)).1 log' := by
  unfold CallTree.addCall
  simp only
  split
  · exact ⟨_, rfl, h.small rfl⟩
  · exact ⟨_, rfl, h.modify c _ rfl⟩

theorem Recorded.enter (h : Recorded s t log) (entry x0 : Word) :
    ∃ log', (t.enter entry x0 (some log)).2 = some log' ∧
      Recorded s (t.enter entry x0 (some log)).1 log' := by
  unfold CallTree.enter
  simp only
  split
  · exact ⟨_, rfl, h.small rfl⟩
  split
  · exact ⟨_, rfl, h.modify _ _ (List.append_nil _).symm⟩
  split
  · split
    · exact ⟨_, rfl, h.modify _ _ (List.append_nil _).symm⟩
    · exact h.addCall _ _ _ _
  split
  · exact h.addCall _ _ _ _
  · exact h.addCall _ _ _ _

theorem Recorded.leave (h : Recorded s t log) (x0 : Word) (x0Width : Nat) :
    ∃ log', (t.leave x0 x0Width (some log)).2 = some log' ∧
      Recorded s (t.leave x0 x0Width (some log)).1 log' := by
  unfold CallTree.leave
  simp only
  split
  · exact ⟨_, rfl, h.small rfl⟩
  split
  · exact ⟨_, rfl, h⟩
  split
  · exact ⟨_, rfl, h.modify _ (closeCall x0 x0Width) (List.append_nil _).symm⟩
  · exact ⟨_, rfl, h.modify _ (closeCall x0 x0Width) (List.append_nil _).symm⟩

end CallTree

end Playground
