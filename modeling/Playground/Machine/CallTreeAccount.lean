/-
The call tree's books.  Each open call is in one node or outside the tree, each call made
is in one node or dropped, and the open nodes are the current one and those above it.  The
source's counters are 32 and 64 bits wide; none ever passes the number of calls, which the
step wall keeps far below that.
-/
import Playground.Machine.CallStack

namespace Playground

section Chain

/-- `i` is on the way up from the node `start - 1`; `parent` gives one more than a node's
parent, 0 for none. -/
inductive OnChain (parent : Nat → Nat) : Nat → Nat → Prop
  | here (i : Nat) : OnChain parent (i + 1) i
  | up {c i : Nat} (h : OnChain parent (parent c) i) : OnChain parent (c + 1) i

variable {parent parent' : Nat → Nat} {start i : Nat}

theorem not_onChain_zero : ¬ OnChain parent 0 i := by
  intro h
  cases h

theorem onChain_succ {c : Nat} :
    OnChain parent (c + 1) i ↔ i = c ∨ OnChain parent (parent c) i := by
  constructor
  · intro h
    cases h with
    | here => exact .inl rfl
    | up h => exact .inr h
  · rintro (rfl | h)
    · exact .here i
    · exact .up h

/-- Parents come before their children, so the chain only goes down. -/
theorem OnChain.lt (hparent : ∀ c, parent c ≤ c) (h : OnChain parent start i) : i < start := by
  induction h with
  | here i => exact Nat.lt_succ_self i
  | up h ih => exact Nat.lt_succ_of_lt (Nat.lt_of_lt_of_le ih (hparent _))

/-- Only the parents below the start matter. -/
theorem OnChain.congr (hparent : ∀ c, parent c ≤ c) (hsame : ∀ c < start, parent' c = parent c)
    (h : OnChain parent start i) : OnChain parent' start i := by
  induction h with
  | here i => exact .here i
  | up h ih =>
      apply OnChain.up
      rw [hsame _ (Nat.lt_succ_self _)]
      apply ih
      intro c hc
      apply hsame
      exact Nat.lt_succ_of_lt (Nat.lt_of_lt_of_le hc (hparent _))

theorem onChain_congr (hparent : ∀ c, parent c ≤ c) (hsame : ∀ c < start, parent' c = parent c)
    (hparent' : ∀ c, parent' c ≤ c) : OnChain parent' start i ↔ OnChain parent start i :=
  ⟨OnChain.congr hparent' fun c hc => (hsame c hc).symm, OnChain.congr hparent hsame⟩

end Chain

theorem sum_map_set (f : CallNode → Nat) (nodes : List CallNode) (i : Nat) (node : CallNode)
    (hi : i < nodes.length) :
    ((nodes.set i node).map f).sum + f (nodes.getD i default) = (nodes.map f).sum + f node := by
  induction nodes generalizing i with
  | nil => simp at hi
  | cons head tail ih =>
      cases i with
      | zero =>
          simp
          omega
      | succ i =>
          have htail := ih i (by simpa using hi)
          simp only [List.set_cons_succ, List.map_cons, List.sum_cons, List.getD_cons_succ]
          omega

namespace CallTree

def node (t : CallTree) (i : Nat) : CallNode := t.nodes.getD i default

/-- One more than the index of a node's parent. -/
def parentOf (t : CallTree) (i : Nat) : Nat := (t.node i).parent

/-- The current node and those above it. -/
def OnPath (t : CallTree) (i : Nat) : Prop := OnChain t.parentOf t.current i

/-- The calls nodes stand for that have not returned, and those outside the tree. -/
def openTotal (t : CallTree) : Nat := (t.nodes.map CallNode.openCalls).sum + t.outside

/-- The calls made that a node stands for, and those dropped. -/
def callTotal (t : CallTree) : Nat := (t.nodes.map CallNode.calls).sum + t.dropped

/-- The tree's shape. -/
structure Consistent (t : CallTree) : Prop where
  length_le : t.nodes.length ≤ maxTreeNodes
  parent_le : ∀ i, t.parentOf i ≤ i
  depth_le : ∀ i < t.nodes.length, (t.node i).depth ≤ maxTreeDepth
  depth_eq : ∀ i < t.nodes.length, (t.node i).depth =
    if t.parentOf i = 0 then 1 else (t.node (t.parentOf i - 1)).depth + 1
  latest : ∀ i < t.nodes.length, (t.node i).latest ≠ 0 →
    (t.node i).latest ≤ t.nodes.length ∧ t.parentOf ((t.node i).latest - 1) = i + 1
  single : ∀ i < t.nodes.length, (t.node i).folds = false → (t.node i).calls = 1
  current_le : t.current ≤ t.nodes.length
  open_iff : ∀ i < t.nodes.length, 0 < (t.node i).openCalls ↔ t.OnPath i

/-- What entering a call does to the tree. -/
inductive EnterStep (t : CallTree) : CallTree → Prop
  | dropped : EnterStep t { t with outside := t.outside + 1, dropped := t.dropped + 1 }
  | counted (i : Nat) (hi : t.current = i + 1 ∨
        ∃ c, t.current = c + 1 ∧ (t.node c).latest = i + 1)
      (hfolds : (t.node i).folds = true) :
      EnterStep t { t.modify i countCall with current := i + 1 }
  | added (c : Nat) (fresh : CallNode) (hc : t.current = c + 1)
      (hroom : t.nodes.length < maxTreeNodes) (hdepth : (t.node c).depth < maxTreeDepth)
      (hparent : fresh.parent = c + 1) (hlatest : fresh.latest = 0)
      (hfresh : fresh.depth = (t.node c).depth + 1) (hcalls : fresh.calls = 1)
      (hopen : fresh.openCalls = 1) :
      EnterStep t { t with
        nodes := t.nodes.set c { t.node c with latest := t.nodes.length + 1 } ++ [fresh]
        current := t.nodes.length + 1 }

theorem enterStep_addCall {t : CallTree} {c : Nat} (hc : t.current = c + 1)
    (houtside : t.outside = 0) (entry x0 : Word) (run : Nat) (log : Option TreeUndo) :
    EnterStep t (t.addCall c entry x0 run log).1 := by
  unfold addCall
  simp only
  split
  · simpa [houtside] using EnterStep.dropped (t := t)
  · next hroom =>
      rw [not_or, not_le, not_le] at hroom
      have hlen : ((t.modify c fun n => { n with latest := t.nodes.length + 1 }).nodes ++
          [(⟨entry, c + 1, 0, min run (runShown + 1), (t.nodes.getD c default).depth + 1, 1, 1,
            x0, 0, 0⟩ : CallNode)]).length = t.nodes.length + 1 := by
        simp [modify]
      rw [hlen]
      exact .added c _ hc hroom.1 hroom.2 rfl rfl rfl rfl rfl

theorem enterStep_enter (t : CallTree) (entry x0 : Word) (log : Option TreeUndo) :
    EnterStep t (t.enter entry x0 log).1 := by
  unfold enter
  split
  · exact .dropped
  · next hinside =>
      rw [not_or, not_not] at hinside
      obtain ⟨c, hc⟩ := Nat.exists_eq_succ_of_ne_zero hinside.1
      have hpred : t.current - 1 = c := by omega
      simp only [hpred]
      split
      · next hrecursion =>
          have hsame : ({ t.modify c countCall with current := c + 1 } : CallTree) =
              t.modify c countCall := by
            simp [modify, hc]
          rw [← hsame]
          exact .counted c (.inl hc) hrecursion.1
      · split
        · next hlatest =>
            split
            · next hfolds =>
                refine .counted _ (.inr ⟨c, hc, ?_⟩) hfolds
                exact (Nat.sub_one_add_one hlatest.1).symm
            · exact enterStep_addCall hc hinside.2 _ _ _ _
        · split
          · exact enterStep_addCall hc hinside.2 _ _ _ _
          · exact enterStep_addCall hc hinside.2 _ _ _ _

/-- What leaving a call does to a tree the program is inside. -/
inductive LeaveStep (t : CallTree) : CallTree → Prop
  | outside (h : 0 < t.outside) : LeaveStep t { t with outside := t.outside - 1 }
  | closed (c : Nat) (closed : CallNode) (hc : t.current = c + 1)
      (hclosed : closed = { t.node c with
        openCalls := (t.node c).openCalls - 1, ret := closed.ret, retWidth := closed.retWidth }) :
      LeaveStep t { t with
        nodes := t.nodes.set c closed
        current := if closed.openCalls = 0 then closed.parent else t.current }

theorem getD_set (nodes : List CallNode) (i j : Nat) (n : CallNode) :
    (nodes.set i n).getD j default =
      if i = j ∧ i < nodes.length then n else nodes.getD j default := by
  by_cases hij : i = j
  · subst hij
    by_cases hi : i < nodes.length
    · simp [hi]
    · simp [hi]
  · simp [hij, List.getElem?_set_ne hij]

theorem leaveStep_leave {t : CallTree} (ht : t.Consistent) (hopen : 0 < t.openTotal)
    (x0 : Word) (width : Nat) (log : Option TreeUndo) :
    LeaveStep t (t.leave x0 width log).1 := by
  unfold leave
  split
  · next h => exact .outside h
  · next houtside =>
      split
      · next hcurrent =>
          -- with no current node none is open
          have hzero : ∀ n ∈ t.nodes.map CallNode.openCalls, n = 0 := by
            intro n hn
            obtain ⟨node, hnode, rfl⟩ := List.mem_map.mp hn
            obtain ⟨i, hi, rfl⟩ := List.getElem_of_mem hnode
            have hnot : ¬ t.OnPath i := by
              rw [OnPath, hcurrent]
              exact not_onChain_zero
            have hclosed := mt (ht.open_iff i hi).mp hnot
            simp only [node, List.getD_eq_getElem?_getD, List.getElem?_eq_getElem hi,
              Option.getD_some] at hclosed
            omega
          have hsum := List.sum_eq_zero hzero
          unfold openTotal at hopen
          omega
      · next hcurrent =>
          obtain ⟨c, hc⟩ := Nat.exists_eq_succ_of_ne_zero hcurrent
          have hpred : t.current - 1 = c := by omega
          have hlt : c < t.nodes.length := by
            have hle := ht.current_le
            omega
          have hnode : (t.modify c (closeCall x0 width)).nodes.getD c default =
              closeCall x0 width (t.node c) := by
            rw [modify, getD_set, if_pos ⟨rfl, hlt⟩]
            rfl
          have hstep := LeaveStep.closed (t := t) c (closeCall x0 width (t.node c)) hc rfl
          simp only [hpred, hnode]
          split
          · next hzero =>
              rw [if_pos hzero] at hstep
              exact hstep
          · next hne =>
              rw [if_neg hne] at hstep
              exact hstep

section Consistent

variable {t t' : CallTree}

/-- A change to one node that keeps its parent keeps every parent. -/
theorem parentOf_set {i : Nat} {n : CallNode} (hparent : n.parent = t.parentOf i)
    (ht' : t'.nodes = t.nodes.set i n) : t'.parentOf = t.parentOf := by
  funext j
  unfold parentOf node
  rw [ht', getD_set]
  split
  · next h => exact h.1 ▸ hparent
  · rfl

/-- A change to one node's counts keeps the tree's shape; only the open nodes have to be
looked at again. -/
theorem Consistent.set (ht : t.Consistent) {i : Nat} {n : CallNode} (hi : i < t.nodes.length)
    (hn : n = { t.node i with
      calls := n.calls, openCalls := n.openCalls, ret := n.ret, retWidth := n.retWidth })
    (hsingle : n.folds = false → n.calls = 1) (hnodes : t'.nodes = t.nodes.set i n)
    (hcurrent : t'.current ≤ t.nodes.length)
    (hopen : ∀ j < t.nodes.length, 0 < (t'.node j).openCalls ↔ t'.OnPath j) :
    t'.Consistent := by
  have hparents : t'.parentOf = t.parentOf := parentOf_set (by rw [hn]; rfl) hnodes
  have hnode : ∀ j, t'.node j = if i = j then n else t.node j := by
    intro j
    unfold node
    rw [hnodes, getD_set]
    simp [hi]
  have hlen : t'.nodes.length = t.nodes.length := by rw [hnodes, List.length_set]
  have hdepth : ∀ j, (t'.node j).depth = (t.node j).depth := by
    intro j
    rw [hnode]
    split
    · next hij => subst hij; rw [hn]
    · rfl
  have hlatest : ∀ j, (t'.node j).latest = (t.node j).latest := by
    intro j
    rw [hnode]
    split
    · next hij => subst hij; rw [hn]
    · rfl
  constructor
  · rw [hlen]
    exact ht.length_le
  · rw [hparents]
    exact ht.parent_le
  · intro j hj
    rw [hdepth]
    exact ht.depth_le j (hlen ▸ hj)
  · intro j hj
    rw [hdepth, hdepth, hparents]
    exact ht.depth_eq j (hlen ▸ hj)
  · intro j hj
    rw [hlatest, hparents, hlen]
    exact ht.latest j (hlen ▸ hj)
  · intro j hj
    rw [hnode]
    split
    · exact hsingle
    · exact ht.single j (hlen ▸ hj)
  · rw [hlen]
    exact hcurrent
  · intro j hj
    exact hopen j (hlen ▸ hj)

/-- The small counters are not part of the shape. -/
theorem Consistent.small (ht : t.Consistent) (outside dropped : Nat) :
    Consistent { t with outside := outside, dropped := dropped } :=
  ⟨ht.length_le, ht.parent_le, ht.depth_le, ht.depth_eq, ht.latest, ht.single, ht.current_le,
    ht.open_iff⟩

theorem consistent_start (entry x0 : Word) : (start entry x0).Consistent := by
  have hparent : ∀ i, (start entry x0).parentOf i = 0 := by
    intro i
    cases i <;> rfl
  refine ⟨show 1 ≤ 200 by decide, ?_, ?_, ?_, ?_, ?_, le_rfl, ?_⟩
  · intro i
    rw [hparent]
    exact Nat.zero_le i
  all_goals
    intro i hi
    obtain rfl : i = 0 := Nat.lt_one_iff.mp hi
  · show 1 ≤ 12
    decide
  · rfl
  · intro h
    exact absurd rfl h
  · intro _
    rfl
  · constructor
    · intro _
      exact .here 0
    · intro _
      exact Nat.one_pos

theorem Consistent.counted (ht : t.Consistent) {i : Nat}
    (hi : t.current = i + 1 ∨ ∃ c, t.current = c + 1 ∧ (t.node c).latest = i + 1)
    (hfolds : (t.node i).folds = true) :
    Consistent { t.modify i countCall with current := i + 1 } := by
  have hcurrent := ht.current_le
  have hlt : i < t.nodes.length := by
    rcases hi with hi | ⟨c, hc, hlatest⟩
    · omega
    · have hle := (ht.latest c (by omega) (by omega)).1
      omega
  -- the nodes above `i` are open, and no other one is
  have hup : ∀ j, j ≠ i → (t.OnPath j ↔ OnChain t.parentOf (t.parentOf i) j) := by
    intro j hj
    rcases hi with hi | ⟨c, hc, hlatest⟩
    · rw [OnPath, hi, onChain_succ]
      simp [hj]
    · have hparent := (ht.latest c (by omega) (by omega)).2
      rw [hlatest, Nat.add_sub_cancel] at hparent
      rw [OnPath, hc, hparent]
  have hparents : ({ t.modify i countCall with current := i + 1 } : CallTree).parentOf =
      t.parentOf := parentOf_set (n := countCall (t.node i)) rfl rfl
  refine ht.set (n := countCall (t.node i)) hlt rfl ?_ rfl (by simpa using hlt) ?_
  · intro h
    have hnot : (t.node i).folds = false := h
    rw [hfolds] at hnot
    cases hnot
  · intro j hj
    rw [OnPath, hparents, onChain_succ]
    have hnode : ({ t.modify i countCall with current := i + 1 } : CallTree).node j =
        if i = j then countCall (t.node i) else t.node j := by
      unfold node
      rw [modify, getD_set]
      simp [hlt]
    rw [hnode]
    by_cases hij : j = i
    · subst hij
      simp [countCall]
    · rw [if_neg (Ne.symm hij), ht.open_iff j hj, hup j hij]
      simp [hij]

theorem Consistent.added (ht : t.Consistent) {c : Nat} {fresh : CallNode}
    (hc : t.current = c + 1) (hroom : t.nodes.length < maxTreeNodes)
    (hdepth : (t.node c).depth < maxTreeDepth) (hparent : fresh.parent = c + 1)
    (hlatest : fresh.latest = 0) (hfresh : fresh.depth = (t.node c).depth + 1)
    (hcalls : fresh.calls = 1) (hopen : fresh.openCalls = 1) :
    Consistent { t with
      nodes := t.nodes.set c { t.node c with latest := t.nodes.length + 1 } ++ [fresh]
      current := t.nodes.length + 1 } := by
  generalize hnew : ({ t with
      nodes := t.nodes.set c { t.node c with latest := t.nodes.length + 1 } ++ [fresh]
      current := t.nodes.length + 1 } : CallTree) = t'
  have hcurrent := ht.current_le
  have hlt : c < t.nodes.length := by omega
  have hlen : t'.nodes.length = t.nodes.length + 1 := by simp [← hnew]
  have hlast : t'.node t.nodes.length = fresh := by
    simp [← hnew, node]
  have hold : ∀ j < t.nodes.length, t'.node j =
      if c = j then { t.node c with latest := t.nodes.length + 1 } else t.node j := by
    intro j hj
    have hset := getD_set t.nodes c j { t.node c with latest := t.nodes.length + 1 }
    rw [List.getD_eq_getElem?_getD] at hset
    rw [node, ← hnew, List.getD_eq_getElem?_getD,
      List.getElem?_append_left (by simpa using hj), hset]
    simp [hlt, node]
  have hparents : ∀ j < t.nodes.length, t'.parentOf j = t.parentOf j := by
    intro j hj
    rw [parentOf, hold j hj]
    split
    · next hij => subst hij; rfl
    · rfl
  have hdepths : ∀ j < t.nodes.length, (t'.node j).depth = (t.node j).depth := by
    intro j hj
    rw [hold j hj]
    split
    · next hij => subst hij; rfl
    · rfl
  have hfreshParent : t'.parentOf t.nodes.length = c + 1 := by
    rw [parentOf, hlast, hparent]
  have hparentLe : ∀ j, t'.parentOf j ≤ j := by
    intro j
    rcases Nat.lt_trichotomy j t.nodes.length with hj | rfl | hj
    · rw [hparents j hj]
      exact ht.parent_le j
    · rw [hfreshParent]
      omega
    · have hnone : t'.node j = default := by
        rw [node, List.getD_eq_getElem?_getD, List.getElem?_eq_none (by omega)]
        rfl
      rw [parentOf, hnone]
      exact Nat.zero_le j
  have hsplit : ∀ j < t'.nodes.length, j < t.nodes.length ∨ j = t.nodes.length := by
    intro j hj
    omega
  constructor
  · omega
  · exact hparentLe
  · intro j hj
    rcases hsplit j hj with hj | rfl
    · rw [hdepths j hj]
      exact ht.depth_le j hj
    · rw [hlast, hfresh]
      omega
  · intro j hj
    rcases hsplit j hj with hj | rfl
    · rw [hdepths j hj, hparents j hj, ht.depth_eq j hj]
      split
      · rfl
      · have hle := ht.parent_le j
        rw [hdepths _ (by omega)]
    · rw [hlast, hfreshParent, hfresh, if_neg (Nat.succ_ne_zero c), Nat.add_sub_cancel,
        hdepths c hlt]
  · intro j hj
    rcases hsplit j hj with hj | rfl
    · rw [hold j hj]
      split
      · next hij =>
          subst hij
          intro _
          exact ⟨by simp only; omega, hfreshParent⟩
      · intro hne
        obtain ⟨hle, hback⟩ := ht.latest j hj hne
        refine ⟨by omega, ?_⟩
        rw [hparents _ (by omega)]
        exact hback
    · rw [hlast, hlatest]
      intro h
      exact absurd rfl h
  · intro j hj
    rcases hsplit j hj with hj | rfl
    · rw [hold j hj]
      split
      · exact ht.single c hlt
      · exact ht.single j hj
    · rw [hlast]
      intro _
      exact hcalls
  · simp [← hnew]
  · -- the new node is open, below the node that was current
    have hpath : ∀ j, t'.OnPath j ↔ j = t.nodes.length ∨ t.OnPath j := by
      intro j
      have hstart : t'.current = t.nodes.length + 1 := by rw [← hnew]
      rw [OnPath, hstart, onChain_succ, hfreshParent, OnPath, hc]
      rw [onChain_congr ht.parent_le (fun i hi => hparents i (by omega)) hparentLe]
    intro j hj
    rw [hpath]
    rcases hsplit j hj with hj | rfl
    · have hne : j ≠ t.nodes.length := by omega
      rw [← ht.open_iff j hj, hold j hj]
      simp only [hne, false_or]
      split
      · next hij => subst hij; rfl
      · rfl
    · simp [hlast, hopen]

theorem Consistent.closed (ht : t.Consistent) {c : Nat} {closed : CallNode}
    (hc : t.current = c + 1)
    (hclosed : closed = { t.node c with
      openCalls := (t.node c).openCalls - 1, ret := closed.ret, retWidth := closed.retWidth }) :
    Consistent { t with
      nodes := t.nodes.set c closed
      current := if closed.openCalls = 0 then closed.parent else t.current } := by
  have hcurrent := ht.current_le
  have hlt : c < t.nodes.length := by omega
  have hparent : closed.parent = t.parentOf c := by rw [hclosed]; rfl
  have hup := ht.parent_le c
  refine ht.set (n := closed) hlt ?_ ?_ rfl ?_ ?_
  · rw [hclosed]
  · intro h
    have hcalls : closed.calls = (t.node c).calls := by rw [hclosed]
    rw [hcalls]
    apply ht.single c hlt
    rw [hclosed] at h
    exact h
  · simp only
    split <;> omega
  · intro j hj
    have hparents : (CallTree.parentOf { t with
        nodes := t.nodes.set c closed
        current := if closed.openCalls = 0 then closed.parent else t.current }) = t.parentOf :=
      parentOf_set hparent rfl
    rw [OnPath, hparents]
    have hnode : (CallTree.node { t with
        nodes := t.nodes.set c closed
        current := if closed.openCalls = 0 then closed.parent else t.current } j) =
        if c = j then closed else t.node j := by
      unfold node
      rw [getD_set]
      simp [hlt]
    rw [hnode]
    have hpath := ht.open_iff j hj
    rw [OnPath, hc, onChain_succ] at hpath
    simp only
    by_cases hzero : closed.openCalls = 0
    · rw [if_pos hzero, hparent]
      by_cases hij : c = j
      · -- the node that closed is not above itself
        subst hij
        rw [if_pos rfl, hzero]
        constructor
        · intro h
          omega
        · intro h
          have hbelow := OnChain.lt ht.parent_le h
          omega
      · rw [if_neg hij, hpath]
        simp [Ne.symm hij]
    · rw [if_neg hzero, hc, onChain_succ]
      by_cases hij : c = j
      · subst hij
        rw [if_pos rfl]
        simp only [true_or, iff_true]
        omega
      · rw [if_neg hij]
        exact hpath

end Consistent

/-- Entering a call keeps the shape, and the call is counted once as open and once as
made. -/
theorem enter_spec {t : CallTree} (ht : t.Consistent) (entry x0 : Word)
    (log : Option TreeUndo) :
    (t.enter entry x0 log).1.Consistent ∧
      (t.enter entry x0 log).1.openTotal = t.openTotal + 1 ∧
      (t.enter entry x0 log).1.callTotal = t.callTotal + 1 := by
  have hstep := enterStep_enter t entry x0 log
  generalize (t.enter entry x0 log).1 = t' at hstep
  cases hstep with
  | dropped =>
      refine ⟨ht.small _ _, ?_, ?_⟩
      · simp only [openTotal]
        omega
      · simp only [callTotal]
        omega
  | counted i hi hfolds =>
      have hlt : i < t.nodes.length := by
        have hcurrent := ht.current_le
        rcases hi with hi | ⟨c, hc, hlatest⟩
        · omega
        · have hle := (ht.latest c (by omega) (by omega)).1
          omega
      have hopen := sum_map_set CallNode.openCalls t.nodes i (countCall (t.node i)) hlt
      have hcalls := sum_map_set CallNode.calls t.nodes i (countCall (t.node i)) hlt
      refine ⟨ht.counted hi hfolds, ?_, ?_⟩
      · simp only [openTotal, modify]
        simp only [countCall, node] at hopen
        simp only [countCall]
        omega
      · simp only [callTotal, modify]
        simp only [countCall, node] at hcalls
        simp only [countCall]
        omega
  | added c fresh hc hroom hdepth hparent hlatest hfresh hcalls hopen =>
      have hlt : c < t.nodes.length := by
        have hcurrent := ht.current_le
        omega
      have hopenSum := sum_map_set CallNode.openCalls t.nodes c
        { t.node c with latest := t.nodes.length + 1 } hlt
      have hcallSum := sum_map_set CallNode.calls t.nodes c
        { t.node c with latest := t.nodes.length + 1 } hlt
      refine ⟨ht.added hc hroom hdepth hparent hlatest hfresh hcalls hopen, ?_, ?_⟩
      · simp only [openTotal, List.map_append, List.sum_append, List.map_cons, List.map_nil,
          List.sum_cons, List.sum_nil, hopen]
        simp only [node] at hopenSum ⊢
        omega
      · simp only [callTotal, List.map_append, List.sum_append, List.map_cons, List.map_nil,
          List.sum_cons, List.sum_nil, hcalls]
        simp only [node] at hcallSum ⊢
        omega

theorem leave_spec {t : CallTree} (ht : t.Consistent) (hopen : 0 < t.openTotal) (x0 : Word)
    (width : Nat) (log : Option TreeUndo) :
    (t.leave x0 width log).1.Consistent ∧
      (t.leave x0 width log).1.openTotal + 1 = t.openTotal ∧
      (t.leave x0 width log).1.callTotal = t.callTotal := by
  have hstep := leaveStep_leave ht hopen x0 width log
  generalize (t.leave x0 width log).1 = t' at hstep
  cases hstep with
  | outside h =>
      refine ⟨ht.small _ _, ?_, rfl⟩
      simp only [openTotal]
      omega
  | closed c closed hc hclosed =>
      have hlt : c < t.nodes.length := by
        have hcurrent := ht.current_le
        omega
      have hpos : 0 < (t.node c).openCalls := by
        rw [ht.open_iff c hlt, OnPath, hc]
        exact .here c
      have hopenSum := sum_map_set CallNode.openCalls t.nodes c closed hlt
      have hcallSum := sum_map_set CallNode.calls t.nodes c closed hlt
      have hopenOne : closed.openCalls = (t.node c).openCalls - 1 := by rw [hclosed]
      have hcallOne : closed.calls = (t.node c).calls := by rw [hclosed]
      refine ⟨ht.closed hc hclosed, ?_, ?_⟩
      · simp only [openTotal]
        simp only [node] at hopenOne hpos
        omega
      · simp only [callTotal]
        simp only [node] at hcallOne
        omega

end CallTree

end Playground
