/-
The check of the frame chain in memory against the call stack.  The chain is guest
memory, so a walk along it stops at the first link that does not rise.
-/
import Playground.Machine.Cpu

namespace Playground

namespace CallStack

/-- The return addresses of the activations that have a record, innermost first. -/
def expectedReturns (s : CallStack) (sp fp : Word) (mem : Memory) : List Word :=
  s.acts.reverse.zipIdx.filterMap fun (a, k) =>
    if (if k = 0 then decide (shape a sp fp mem = .complete) else decide (a.record ≠ 0)) then
      some a.retAddr
    else none

/-- Walk the records from `base`, each one's saved fp leading to the next, and compare the
saved lrs with `expected` from the `k`th on. -/
def chainWalk (mem : Memory) (sp : Word) (expected : List Word) (base : Word) (k : Nat) : Bool :=
  if base = 0 then decide (k = expected.length)
  else if k = expected.length ∨ base < sp ∨ stackBase ≤ base ∨ base.toNat % 8 ≠ 0 then false
  else
    match mem.readU64 base, mem.readU64 (base + 8) with
    | .ok savedFp, .ok savedLr =>
        if savedLr ≠ expected.getD k 0 ∨ savedFp ≠ 0 ∧ savedFp ≤ base then false
        else chainWalk mem sp expected savedFp (k + 1)
    | _, _ => false
termination_by if base = 0 then 0 else 2 ^ 64 - base.toNat
decreasing_by
  rename_i hbase hrange hrise
  rw [if_neg hbase]
  by_cases hzero : savedFp = 0
  · rw [if_pos hzero]
    have := base.isLt
    omega
  · rw [if_neg hzero]
    have hlt : base.toNat < savedFp.toNat := by
      apply Nat.lt_of_not_le
      exact fun hle => hrise (.inr ⟨hzero, hle⟩)
    have := savedFp.isLt
    omega

/-- The x29 chain in memory holds exactly the records the call stack expects. -/
def chainMatches (s : CallStack) (regs : Fin 32 → Word) (mem : Memory) : Bool :=
  if 0 < s.uncounted then false
  else chainWalk mem (regs 31) (s.expectedReturns (regs 31) (regs 29) mem) (regs 29) 0

/-- The activations expected to have a record, innermost first: the innermost when its fp
points at one, a caller when it called out with one. -/
def recordOwners (s : CallStack) (sp fp : Word) (mem : Memory) : List Activation :=
  (s.acts.getLast?.toList.filter fun a => decide (shape a sp fp mem = .complete)) ++
    s.acts.dropLast.reverse.filter fun a => decide (a.record ≠ 0)

/-- The walk along saved x29 values from `fp`: the records it visits, and the return
addresses they save. -/
structure Follows (mem : Memory) (sp fp : Word) (bases lrs : List Word) : Prop where
  links : ∃ savedFps, fp :: savedFps = bases ++ [0] ∧
    bases.map mem.readU64 = savedFps.map .ok
  increasing : bases.Pairwise (· < ·)
  aligned : ∀ base ∈ bases, base.toNat % 8 = 0
  inStack : ∀ base ∈ bases, base ≠ 0 ∧ sp ≤ base ∧ base < stackBase
  returns : bases.map (fun base => mem.readU64 (base + 8)) = lrs.map .ok

variable {s : CallStack} {mem : Memory} {sp fp base next lr : Word} {bases lrs : List Word}

/-- Past the innermost activation only the recorded address counts. -/
theorem callerReturns_eq (complete : Activation → Bool) (callers : List Activation) {n : Nat}
    (hn : n ≠ 0) :
    (callers.zipIdx n).filterMap (fun (a, k) =>
      if (if k = 0 then complete a else decide (a.record ≠ 0)) then some a.retAddr else none) =
      (callers.filter fun a => decide (a.record ≠ 0)).map Activation.retAddr := by
  induction callers generalizing n with
  | nil => rfl
  | cons a callers ih =>
      rw [List.zipIdx_cons, List.filterMap_cons, List.filter_cons, ih (Nat.succ_ne_zero n)]
      simp only [hn, ↓reduceIte]
      by_cases hrecord : a.record = 0#64 <;> simp [hrecord]

theorem expectedReturns_eq (s : CallStack) (sp fp : Word) (mem : Memory) :
    s.expectedReturns sp fp mem = (s.recordOwners sp fp mem).map Activation.retAddr := by
  unfold expectedReturns recordOwners
  rcases s.acts.eq_nil_or_concat with hacts | ⟨callers, top, hacts⟩
  · rw [hacts]
    rfl
  · rw [hacts, List.concat_eq_append, List.reverse_append, List.getLast?_append,
      List.dropLast_concat]
    simp only [List.reverse_singleton, List.singleton_append, List.zipIdx_cons,
      List.filterMap_cons, callerReturns_eq (fun a => decide (shape a sp fp mem = .complete))
        callers.reverse (Nat.succ_ne_zero 0)]
    by_cases hcomplete : shape top sp fp mem = .complete <;> simp [hcomplete]

theorem follows_nil (mem : Memory) (sp : Word) : Follows mem sp 0 [] [] :=
  ⟨⟨[], rfl, rfl⟩, .nil, nofun, nofun, rfl⟩

/-- A link that rises goes in front of a walk. -/
theorem Follows.cons (h : Follows mem sp next bases lrs) (hzero : base ≠ 0) (hsp : sp ≤ base)
    (hstack : base < stackBase) (haligned : base.toNat % 8 = 0)
    (hfp : mem.readU64 base = .ok next) (hlr : mem.readU64 (base + 8) = .ok lr)
    (hrise : next ≠ 0 → base < next) : Follows mem sp base (base :: bases) (lr :: lrs) := by
  obtain ⟨savedFps, hpath, hreads⟩ := h.links
  refine ⟨⟨next :: savedFps, ?_, ?_⟩, ?_, ?_, ?_, ?_⟩
  · rw [hpath]
    rfl
  · rw [List.map_cons, List.map_cons, hfp, hreads]
  · rw [List.pairwise_cons]
    refine ⟨?_, h.increasing⟩
    cases bases with
    | nil => nofun
    | cons first bases =>
        cases hpath
        have hfirst := hrise (h.inStack next List.mem_cons_self).1
        intro later hlater
        rcases List.mem_cons.mp hlater with rfl | hlater
        · exact hfirst
        · exact BitVec.lt_trans hfirst (List.rel_of_pairwise_cons h.increasing hlater)
  · intro b hb
    rcases List.mem_cons.mp hb with rfl | hb
    · exact haligned
    · exact h.aligned b hb
  · intro b hb
    rcases List.mem_cons.mp hb with rfl | hb
    · exact ⟨hzero, hsp, hstack⟩
    · exact h.inStack b hb
  · rw [List.map_cons, List.map_cons, hlr, h.returns]

/-- A walk that visits a record starts with a link that rises. -/
theorem Follows.uncons (h : Follows mem sp fp (base :: bases) (lr :: lrs)) :
    fp = base ∧ ∃ next, mem.readU64 base = .ok next ∧ mem.readU64 (base + 8) = .ok lr ∧
      (next ≠ 0 → base < next) ∧ Follows mem sp next bases lrs := by
  obtain ⟨savedFps, hpath, hreads⟩ := h.links
  obtain ⟨rfl, htail⟩ := List.cons.inj hpath
  have hreturns := h.returns
  rw [List.map_cons, List.map_cons] at hreturns
  obtain ⟨hlr, hreturns⟩ := List.cons.inj hreturns
  have hrest : ∀ b ∈ bases, b ∈ fp :: bases := fun b hb => List.mem_cons_of_mem fp hb
  cases savedFps with
  | nil => simp at htail
  | cons next savedFps =>
      rw [List.map_cons, List.map_cons] at hreads
      obtain ⟨hfp, hreads⟩ := List.cons.inj hreads
      refine ⟨rfl, next, hfp, hlr, ?_, ⟨savedFps, htail, hreads⟩, h.increasing.of_cons,
        fun b hb => h.aligned b (hrest b hb), fun b hb => h.inStack b (hrest b hb), hreturns⟩
      intro hnext
      cases bases with
      | nil => exact absurd (List.cons.inj htail).1 hnext
      | cons first bases =>
          rw [(List.cons.inj htail).1]
          exact List.rel_of_pairwise_cons h.increasing List.mem_cons_self

theorem follows_zero_iff : (∃ bases, Follows mem sp 0 bases lrs) ↔ lrs = [] := by
  constructor
  · rintro ⟨bases, h⟩
    have hreturns := h.returns
    cases bases with
    | nil => exact List.map_eq_nil_iff.mp hreturns.symm
    | cons base bases =>
        obtain ⟨savedFps, hpath, -⟩ := h.links
        exact absurd (List.cons.inj hpath).1.symm (h.inStack base List.mem_cons_self).1
  · rintro rfl
    exact ⟨[], follows_nil mem sp⟩

/-- One link of a walk. -/
theorem follows_iff (hbase : base ≠ 0) : (∃ bases, Follows mem sp base bases lrs) ↔
    ∃ next lr rest, lrs = lr :: rest ∧ (sp ≤ base ∧ base < stackBase ∧ base.toNat % 8 = 0) ∧
      mem.readU64 base = .ok next ∧ mem.readU64 (base + 8) = .ok lr ∧
      (next ≠ 0 → base < next) ∧ ∃ bases, Follows mem sp next bases rest := by
  constructor
  · rintro ⟨bases, h⟩
    have hreturns := h.returns
    cases bases with
    | nil =>
        obtain ⟨savedFps, hpath, -⟩ := h.links
        exact absurd (List.cons.inj hpath).1 hbase
    | cons first bases =>
        cases lrs with
        | nil => cases hreturns
        | cons lr lrs =>
            obtain ⟨rfl, next, hfp, hlr, hrise, hrest⟩ := h.uncons
            obtain ⟨-, hsp, hstack⟩ := h.inStack base List.mem_cons_self
            exact ⟨next, lr, lrs, rfl, ⟨hsp, hstack, h.aligned base List.mem_cons_self⟩, hfp, hlr,
              hrise, bases, hrest⟩
  · rintro ⟨next, lr, rest, rfl, ⟨hsp, hstack, haligned⟩, hfp, hlr, hrise, bases, hrest⟩
    exact ⟨base :: bases, hrest.cons hbase hsp hstack haligned hfp hlr hrise⟩

theorem chainWalk_iff {expected : List Word} {k : Nat} (hk : k ≤ expected.length) :
    chainWalk mem sp expected base k = true ↔
      ∃ bases, Follows mem sp base bases (expected.drop k) := by
  induction base, k using chainWalk.induct mem sp expected with
  | case1 k =>
      unfold chainWalk
      rw [if_pos rfl, decide_eq_true_iff, follows_zero_iff, List.drop_eq_nil_iff]
      omega
  | case2 base k hbase hout =>
      unfold chainWalk
      rw [if_neg hbase, if_pos hout, follows_iff hbase]
      simp only [Bool.false_eq_true, false_iff]
      rintro ⟨next, lr, rest, hdrop, ⟨hsp, hstack, haligned⟩, -⟩
      rcases hout with hlen | hlow | hhigh | hodd
      · rw [hlen, List.drop_length] at hdrop
        cases hdrop
      · exact BitVec.not_lt.mpr hsp hlow
      · exact BitVec.not_lt.mpr hhigh hstack
      · exact hodd haligned
  | case3 base k hbase hin savedFp savedLr hlr hfp hwrong =>
      unfold chainWalk
      rw [if_neg hbase, if_neg hin, follows_iff hbase, hfp, hlr]
      simp only [hwrong, ↓reduceIte, Bool.false_eq_true, false_iff]
      rintro ⟨next, lr, rest, hdrop, -, hnext, hsaved, hrise, -⟩
      cases hnext
      cases hsaved
      rcases hwrong with hdiff | ⟨hzero, hle⟩
      · apply hdiff
        rw [List.getD_eq_getElem?_getD, ← List.head?_drop, hdrop]
        rfl
      · exact BitVec.not_lt.mpr hle (hrise hzero)
  | case4 base k hbase hin savedFp savedLr hlr hfp hright ih =>
      have hlt : k < expected.length := by
        have hne : k ≠ expected.length := fun h => hin (.inl h)
        omega
      have hdrop : expected.drop k = expected.getD k 0 :: expected.drop (k + 1) := by
        rw [List.drop_eq_getElem_cons hlt, List.getD_eq_getElem _ _ hlt]
      unfold chainWalk
      rw [if_neg hbase, if_neg hin, follows_iff hbase, hfp, hlr]
      simp only [hright, ↓reduceIte]
      rw [ih hlt, hdrop]
      simp only [not_or, not_and, ne_eq, not_not] at hright hin
      constructor
      · rintro hrest
        exact ⟨savedFp, savedLr, _, by rw [hright.1],
          ⟨BitVec.not_lt.mp hin.2.1, BitVec.not_le.mp hin.2.2.1, hin.2.2.2⟩, rfl, rfl,
          fun hzero => BitVec.not_le.mp (hright.2 hzero), hrest⟩
      · rintro ⟨next, lr, rest, hcons, -, hnext, -, -, hrest⟩
        cases hnext
        rw [(List.cons.inj hcons).2]
        exact hrest
  | case5 base k hbase hin hfault =>
      unfold chainWalk
      rw [if_neg hbase, if_neg hin, follows_iff hbase]
      constructor
      · intro h
        rcases hfp : mem.readU64 base with e | savedFp <;>
          rcases hlr : mem.readU64 (base + 8) with e' | savedLr <;>
          simp only [hfp, hlr, Bool.false_eq_true] at h
        exact (hfault savedFp savedLr hfp hlr).elim
      · rintro ⟨next, lr, rest, -, -, hfp, hlr, -⟩
        exact (hfault next lr hfp hlr).elim

/-- The check ends on every chain, and accepts exactly the walk the call stack expects. -/
theorem chainMatches_iff (s : CallStack) (regs : Fin 32 → Word) (mem : Memory) :
    s.chainMatches regs mem = true ↔ s.uncounted = 0 ∧
      ∃ bases, Follows mem (regs 31) (regs 29) bases
        ((s.recordOwners (regs 31) (regs 29) mem).map Activation.retAddr) := by
  rw [← expectedReturns_eq]
  unfold chainMatches
  by_cases huncounted : 0 < s.uncounted
  · rw [if_pos huncounted]
    simp [Nat.pos_iff_ne_zero.mp huncounted]
  · rw [if_neg huncounted, chainWalk_iff (Nat.zero_le _), List.drop_zero]
    simp [Nat.eq_zero_of_not_pos huncounted]

end CallStack

end Playground
