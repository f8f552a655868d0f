/-
The rounds of `resolveEquates`.  They are passes over a worklist, and when no equate is read
early each of them records just the equates that settle in it, at the values they denote.
-/
import Playground.Frontend.EquateMeaning
import Playground.Frontend.ErrorLines
import Playground.Library.Worklist

namespace Playground

open Worklist

/-- Record a pending assignment if its body evaluates. -/
def Scope.attempt (s : Scope) (a : Assignment) : Option Scope :=
  (tryEvaluateAt a s).map (s.recordEquate a.name a.line)

/-- No pending name is a label. -/
def LabelFree (labelLines : String → Option Nat) (pending : List Assignment) : Prop :=
  ∀ a ∈ pending, labelLines a.name = none

variable {labelLines : String → Option Nat} {pending : List Assignment}

theorem resolvePass_of_labelFree (s : Scope) (h : LabelFree labelLines pending) :
    resolvePass labelLines s pending = .ok ((pass Scope.attempt s pending).1,
      (pass Scope.attempt s pending).2,
      decide ((pass Scope.attempt s pending).2.length < pending.length)) := by
  induction pending generalizing s with
  | nil => simp [resolvePass, Worklist.pass]
  | cons a rest ih =>
      have hrest : LabelFree labelLines rest := fun b hb => h b (List.mem_cons_of_mem a hb)
      have ha : labelLines a.name = none := h a List.mem_cons_self
      cases hvalue : tryEvaluateAt a s with
      | some v =>
          have hattempt : s.attempt a = some (s.recordEquate a.name a.line v) := by
            simp [Scope.attempt, hvalue]
          have hlt : (pass Scope.attempt (s.recordEquate a.name a.line v) rest).2.length <
              rest.length + 1 :=
            Nat.lt_succ_of_le (pass_sublist _ rest).length_le
          rw [pass_cons_some hattempt]
          simp [resolvePass, ha, hvalue, ih _ hrest, bind, Except.bind, pure, Except.pure, hlt]
      | none =>
          have hattempt : s.attempt a = none := by simp [Scope.attempt, hvalue]
          rw [pass_cons_none hattempt]
          simp [resolvePass, ha, hvalue, ih _ hrest, bind, Except.bind, pure, Except.pure]

theorem resolveRounds_of_labelFree (n : Nat) (s : Scope) (h : LabelFree labelLines pending) :
    resolveRounds labelLines n s pending = .ok (passes Scope.attempt n (s, pending)) := by
  induction n generalizing s pending with
  | zero => rfl
  | succ n ih =>
      have hsublist : (pass Scope.attempt s pending).2.Sublist pending := pass_sublist s pending
      have hfree : LabelFree labelLines (pass Scope.attempt s pending).2 := fun a ha =>
        h a (hsublist.subset ha)
      have hpasses : passes Scope.attempt (n + 1) (s, pending) =
          passes Scope.attempt n (pass Scope.attempt s pending) := by
        simp [passes]
      rw [resolveRounds, resolvePass_of_labelFree s h, hpasses]
      simp only [bind, Except.bind]
      by_cases hlt : (pass Scope.attempt s pending).2.length < pending.length
      · rw [if_pos (by simpa using hlt)]
        exact ih _ hfree
      · rw [if_neg (by simpa using hlt)]
        have hself : pass Scope.attempt s pending = (s, pending) := by
          apply pass_eq_self
          exact le_antisymm hsublist.length_le (not_lt.mp hlt)
        have hfix : ∀ n, passes Scope.attempt n (s, pending) = (s, pending) := by
          intro n
          induction n with
          | zero => rfl
          | succ n ih => rw [passes_succ, ih, hself]
        rw [hself, hfix n]
        rfl

/-- The first pending name that is a label ends the pass, at its own line. -/
theorem resolvePass_collision (s : Scope) (h : ¬ LabelFree labelLines pending) :
    ∃ a ∈ pending, ∃ first, labelLines a.name = some first ∧
      resolvePass labelLines s pending =
        .error (.assemblyError a.line (collidesWithLabel a.name first)) := by
  induction pending generalizing s with
  | nil => exact absurd (fun a ha => by simp at ha) h
  | cons a rest ih =>
      cases ha : labelLines a.name with
      | some first => exact ⟨a, List.mem_cons_self, first, ha, by simp [resolvePass, ha]⟩
      | none =>
          have hrest : ¬ LabelFree labelLines rest := by
            intro hfree
            apply h
            intro b hb
            rcases List.mem_cons.mp hb with rfl | hb
            · exact ha
            · exact hfree b hb
          cases hvalue : tryEvaluateAt a s with
          | some v =>
              obtain ⟨b, hb, first, hfirst, heq⟩ := ih (s.recordEquate a.name a.line v) hrest
              refine ⟨b, List.mem_cons_of_mem a hb, first, hfirst, ?_⟩
              simp [resolvePass, ha, hvalue, heq, bind, Except.bind]
          | none =>
              obtain ⟨b, hb, first, hfirst, heq⟩ := ih s hrest
              refine ⟨b, List.mem_cons_of_mem a hb, first, hfirst, ?_⟩
              simp [resolvePass, ha, hvalue, heq, bind, Except.bind]

theorem names_evaluateAt (a : Assignment) (s : Scope) : Names a.line (a.evaluateAt s) := by
  obtain ⟨hnames, htokens⟩ := lex_line a.body.property a.line
  exact hnames.bind fun tokens heq => names_evaluate (htokens tokens heq) _ _

/-- With no collision, the outcome turns on what sixteen passes leave. -/
theorem resolveEquates_of_labelFree {l : Layout} (h : LabelFree l.labelLines l.assignments)
    {s : Scope} {left : List Assignment}
    (hpasses : passes Scope.attempt maxRounds (l.toScope, l.assignments) = (s, left)) :
    resolveEquates l =
      match left with
      | [] => .ok { l with toScope := s.pinFirst, assignments := [] }
      | a :: rest =>
          match a.evaluateAt s with
          | .error e => .error e
          | .ok _ => .ok { l with toScope := s.pinFirst, assignments := a :: rest } := by
  have hrounds : resolveRounds l.labelLines maxRounds l.toScope l.assignments = .ok (s, left) :=
    (resolveRounds_of_labelFree maxRounds l.toScope h).trans (congrArg Except.ok hpasses)
  unfold resolveEquates
  rw [hrounds]
  cases left with
  | nil => rfl
  | cons a rest =>
      simp only [bind, Except.bind]
      cases a.evaluateAt s <;> rfl

namespace Scope

section Nearest

variable {line : Nat} {before after : List (Nat × Word)} {d : Nat × Word}

theorem nearestAbove_none {defs : List (Nat × Word)} (h : ∀ e ∈ defs, line < e.1) :
    nearestAbove line defs = none := by
  unfold nearestAbove
  induction defs with
  | nil => rfl
  | cons e defs ih =>
      have he := h e List.mem_cons_self
      rw [List.foldl_cons, if_neg (by omega)]
      exact ih fun e he => h e (List.mem_cons_of_mem _ he)

/-- Nothing nearer comes after, nor anything farther down before. -/
theorem nearestAbove_split (hd : d.1 ≤ line) (hbefore : ∀ e ∈ before, e.1 ≤ line → e.1 ≤ d.1)
    (hafter : ∀ e ∈ after, e.1 ≤ line → e.1 < d.1) :
    nearestAbove line (before ++ d :: after) = some d := by
  have hkeep : ∀ (defs : List (Nat × Word)), (∀ e ∈ defs, e.1 ≤ line → e.1 < d.1) →
      defs.foldl (fun best d => if d.1 ≤ line ∧ best.all (fun chosen => decide (chosen.1 ≤ d.1))
        then some d else best) (some d) = some d := by
    intro defs h
    induction defs with
    | nil => rfl
    | cons e defs ih =>
        have he := h e List.mem_cons_self
        rw [List.foldl_cons, if_neg]
        · exact ih fun e he => h e (List.mem_cons_of_mem _ he)
        · simp only [Option.all_some, decide_eq_true_eq]
          omega
  have hlow : ∀ (defs : List (Nat × Word)) (best : Option (Nat × Word)),
      (∀ e ∈ defs, e.1 ≤ line → e.1 ≤ d.1) → (∀ e ∈ best, e.1 ≤ d.1) →
      ∀ e ∈ defs.foldl (fun best d => if d.1 ≤ line ∧
        best.all (fun chosen => decide (chosen.1 ≤ d.1)) then some d else best) best,
        e.1 ≤ d.1 := by
    intro defs
    induction defs with
    | nil => exact fun best _ hbest => hbest
    | cons e defs ih =>
        intro best h hbest
        rw [List.foldl_cons]
        refine ih _ (fun e he => h e (List.mem_cons_of_mem _ he)) ?_
        split
        · next hle =>
            rintro e' he'
            cases he'
            exact h e List.mem_cons_self hle.1
        · exact hbest
  unfold nearestAbove
  rw [List.foldl_append, List.foldl_cons, if_pos]
  · exact hkeep after hafter
  · refine ⟨hd, ?_⟩
    rw [Option.all_eq_true_iff_get]
    intro hsome
    rw [decide_eq_true_eq]
    exact hlow before none hbefore (by simp) _ (Option.get_mem hsome)

theorem firstDefinition_split (hbefore : ∀ e ∈ before, d.1 < e.1)
    (hafter : ∀ e ∈ after, d.1 ≤ e.1) : firstDefinition (before ++ d :: after) = some d := by
  have hkeep : ∀ defs : List (Nat × Word), (∀ e ∈ defs, d.1 ≤ e.1) →
      defs.foldl (fun least d => if d.1 < least.1 then d else least) d = d := by
    intro defs h
    induction defs with
    | nil => rfl
    | cons e defs ih =>
        have he := h e List.mem_cons_self
        rw [List.foldl_cons, if_neg (by omega)]
        exact ih fun e he => h e (List.mem_cons_of_mem _ he)
  have hreach : ∀ (defs : List (Nat × Word)) (least : Nat × Word),
      (∀ e ∈ defs, d.1 < e.1) → d.1 < least.1 →
      (defs ++ d :: after).foldl (fun least d => if d.1 < least.1 then d else least) least = d := by
    intro defs
    induction defs with
    | nil =>
        intro least _ hleast
        rw [List.nil_append, List.foldl_cons, if_pos hleast]
        exact hkeep after hafter
    | cons e defs ih =>
        intro least h hleast
        have he := h e List.mem_cons_self
        rw [List.cons_append, List.foldl_cons]
        refine ih _ (fun e he => h e (List.mem_cons_of_mem _ he)) ?_
        split
        · exact he
        · exact hleast
  cases before with
  | nil => exact congrArg some (hkeep after hafter)
  | cons e before =>
      exact congrArg some (hreach before e (fun e he => hbefore e (List.mem_cons_of_mem _ he))
        (hbefore e List.mem_cons_self))

theorem symbolAt_of_nearest {s : Scope} {name : String}
    (h : nearestAbove line (s.equates name) = some d) : s.symbolAt name line = some d.2 := by
  unfold symbolAt
  cases hdefs : s.equates name with
  | nil =>
      rw [hdefs] at h
      cases h
  | cons e defs =>
      rw [hdefs] at h
      simp only [h]

theorem symbolAt_of_first {s : Scope} {name : String}
    (hnone : nearestAbove line (s.equates name) = none)
    (h : firstDefinition (s.equates name) = some d) : s.symbolAt name line = some d.2 := by
  unfold symbolAt
  cases hdefs : s.equates name with
  | nil =>
      rw [hdefs] at h
      cases h
  | cons e defs =>
      rw [hdefs] at h hnone
      simp only [h, hnone, Option.map_some]

theorem symbolAt_of_nil {s : Scope} {name : String} (h : s.equates name = []) :
    s.symbolAt name line = s.symbols name := by
  unfold symbolAt
  rw [h]

end Nearest

end Scope

namespace Equates

variable (S : Equates)

/-- The values of a name among those recorded, by line. -/
def recorded (done : List (Nat × Word)) (name : String) : List (Nat × Word) :=
  done.filterMap fun d => (S.equate d.1).bind fun b =>
    if b.name = name then some (b.line, d.2) else none

/-- The scope when round `r` comes to place `i`: what has settled is recorded, at its value. -/
structure Records (r i : Nat) (done : List (Nat × Word)) (s : Scope) : Prop where
  settled : ∀ j, (∃ v, (j, v) ∈ done) ↔ S.SettledBefore r i j
  values : ∀ j v, (j, v) ∈ done → S.Denotes j v
  ordered : done.Pairwise fun p q => ∀ b c, S.equate p.1 = some b → S.equate q.1 = some c →
    b.name = c.name → b.line = c.line → p.1 < q.1
  equates : ∀ name, s.equates name = S.recorded done name
  placed : ∀ name, s.equates name = [] → s.symbols name = S.placed r i name

variable {S} {r i j : Nat} {done : List (Nat × Word)} {s : Scope} {a b : Assignment}
  {name : String} {v w : Word}

theorem mem_recorded {e : Nat × Word} (h : e ∈ S.recorded done name) :
    ∃ k c, (k, e.2) ∈ done ∧ S.equate k = some c ∧ c.name = name ∧ e.1 = c.line := by
  obtain ⟨⟨k, v⟩, hmem, hsome⟩ := List.mem_filterMap.mp h
  obtain ⟨c, hc, hif⟩ := Option.bind_eq_some_iff.mp hsome
  split at hif
  · next hname =>
      cases hif
      exact ⟨k, c, hmem, hc, hname, rfl⟩
  · cases hif

namespace Records

/-- A name is worth what the definition taken has recorded. -/
theorem symbolAt_of_takes (h : S.Records r i done s) (hopen : ¬ S.SettledBefore r i i)
    (htake : S.Takes i a name j b) (hmem : (j, w) ∈ done) : s.symbolAt name a.line = some w := by
  obtain ⟨⟨hne, hequate, hname⟩, htaken⟩ := htake
  obtain ⟨before, after, rfl⟩ := List.append_of_mem hmem
  have hordered := List.pairwise_append.mp h.ordered
  obtain ⟨-, hcons, hcross⟩ := hordered
  have hafterward := (List.pairwise_cons.mp hcons).1
  have hsplit : s.equates name =
      S.recorded before name ++ (b.line, w) :: S.recorded after name := by
    rw [h.equates, recorded, List.filterMap_append, List.filterMap_cons]
    simp only [hequate, Option.bind_some, if_pos hname]
    rfl
  have hother : ∀ k u c, (k, u) ∈ before ++ (j, w) :: after → S.equate k = some c →
      c.name = name → S.Other i name k c := by
    intro k u c hk hc hcname
    refine ⟨?_, hc, hcname⟩
    rintro rfl
    exact hopen ((h.settled k).mp ⟨u, hk⟩)
  have hbefore : ∀ e ∈ S.recorded before name, ∃ k c, S.Other i name k c ∧ e.1 = c.line ∧
      (c.line = b.line → k < j) := by
    intro e he
    obtain ⟨k, c, hk, hc, hcname, hline⟩ := mem_recorded he
    refine ⟨k, c, hother k e.2 c (List.mem_append_left _ hk) hc hcname, hline, fun heq => ?_⟩
    exact hcross _ hk _ List.mem_cons_self c b hc hequate (hcname.trans hname.symm) heq
  have hafter : ∀ e ∈ S.recorded after name, ∃ k c, S.Other i name k c ∧ e.1 = c.line ∧
      (c.line = b.line → j < k) := by
    intro e he
    obtain ⟨k, c, hk, hc, hcname, hline⟩ := mem_recorded he
    refine ⟨k, c, hother k e.2 c (List.mem_append_right _ (List.mem_cons_of_mem _ hk)) hc hcname,
      hline, fun heq => ?_⟩
    exact hafterward _ hk b c hequate hc (hname.trans hcname.symm) heq.symm
  rcases htaken with ⟨hle, hnear⟩ | hfirst
  · refine Scope.symbolAt_of_nearest (d := (b.line, w)) ?_
    rw [hsplit]
    refine Scope.nearestAbove_split hle (fun e he hline => ?_) fun e he hline => ?_
    · obtain ⟨k, c, hc, heq, -⟩ := hbefore e he
      have hk := hnear k c hc (by omega)
      show e.1 ≤ b.line
      omega
    · obtain ⟨k, c, hc, heq, hlt⟩ := hafter e he
      have hk := hnear k c hc (by omega)
      show e.1 < b.line
      omega
  · have hnone : Scope.nearestAbove a.line (s.equates name) = none := by
      refine Scope.nearestAbove_none fun e he => ?_
      rw [h.equates] at he
      obtain ⟨k, c, hk, hc, hcname, hline⟩ := mem_recorded he
      rw [hline]
      exact (hfirst k c (hother k e.2 c hk hc hcname)).1
    refine Scope.symbolAt_of_first (d := (b.line, w)) hnone ?_
    rw [hsplit]
    refine Scope.firstDefinition_split (fun e he => ?_) fun e he => ?_
    · obtain ⟨k, c, hc, heq, hlt⟩ := hbefore e he
      have hk := (hfirst k c hc).2
      show b.line < e.1
      omega
    · obtain ⟨k, c, hc, heq, -⟩ := hafter e he
      have hk := (hfirst k c hc).2
      show b.line ≤ e.1
      omega

/-- A name that no other equate defines is worth its label or symbol. -/
theorem symbolAt_of_placed (h : S.Records r i done s) (hopen : ¬ S.SettledBefore r i i)
    (hnone : ∀ j b, ¬ S.Takes i a name j b) : s.symbolAt name a.line = S.placed r i name := by
  have hnil : s.equates name = [] := by
    rw [h.equates]
    refine List.eq_nil_iff_forall_not_mem.mpr fun e he => ?_
    obtain ⟨k, c, hk, hc, hcname, -⟩ := mem_recorded he
    have hne : k ≠ i := by
      rintro rfl
      exact hopen ((h.settled k).mp ⟨e.2, hk⟩)
    obtain ⟨j, b, htake⟩ := exists_takes (a := a) ⟨hne, hc, hcname⟩
    exact hnone j b htake
  rw [Scope.symbolAt_of_nil hnil, h.placed name hnil]

/-- A name with a value is known. -/
theorem known (h : S.Records r i done s) (hopen : ¬ S.SettledBefore r i i)
    (hsome : (s.symbolAt name a.line).isSome) : S.Known r i name := by
  cases hdefs : s.equates name with
  | nil =>
      rw [Scope.symbolAt_of_nil hdefs, h.placed name hdefs] at hsome
      exact .inl hsome
  | cons e defs =>
      have hmem : e ∈ S.recorded done name := by
        rw [← h.equates, hdefs]
        exact List.mem_cons_self
      obtain ⟨k, c, hk, hc, hcname, -⟩ := mem_recorded hmem
      have hbefore := (h.settled k).mp ⟨e.2, hk⟩
      refine .inr ⟨k, c, ⟨?_, hc, hcname⟩, hbefore⟩
      rintro rfl
      exact hopen hbefore

/-- At its turn an open equate evaluates just when it settles, and to its value. -/
theorem tryEvaluateAt_iff (h : S.Records r i done s) (hlate : S.ReadsLate)
    (hequate : S.equate i = some a) (hopen : ¬ S.SettledBefore r i i) :
    tryEvaluateAt a s = some v ↔ S.Settles r i v := by
  have htry : tryEvaluateAt a s = some v ↔
      a.evaluateWith (fun name => s.symbolAt name a.line) = .ok v := by
    rw [tryEvaluateAt, evaluateAt_eq]
    cases a.evaluateWith fun name => s.symbolAt name a.line with
    | error e => simp [Except.toOption]
    | ok w => simp [Except.toOption]
  have htaken : ∀ name j b w, S.Takes i a name j b → (∃ r', S.Settles r' j w) →
      S.SettledBefore r i j → s.symbolAt name a.line = some w := by
    intro name j b w htake hsettles hbefore
    obtain ⟨r', hsettles⟩ := hsettles
    obtain ⟨u, hmem⟩ := (h.settled j).mpr hbefore
    obtain ⟨r'', hdenotes⟩ := h.values j u hmem
    rw [hsettles.unique hdenotes]
    exact h.symbolAt_of_takes hopen htake hmem
  rw [htry]
  constructor
  · intro heval
    have hsome := resolve_of_evaluateWith heval
    have hbefore := hlate.late r i a hequate fun name hname => h.known hopen (hsome name hname)
    -- each name is worth the value of the definition taken, which has settled by now
    have hname : ∀ name, ∃ w q, name ∈ a.mentions → s.symbolAt name a.line = some w ∧
        ∀ j b, S.Takes i a name j b → S.Settles q j w ∧ (q < r ∨ q = r ∧ j < i) := by
      intro name
      by_cases hmention : name ∈ a.mentions
      · by_cases htake : ∃ j b, S.Takes i a name j b
        · obtain ⟨j, b, htake⟩ := htake
          obtain ⟨q, w, hq, hsettles⟩ := hbefore name hmention j b htake
          refine ⟨w, q, fun _ => ⟨htaken name j b w htake ⟨q, hsettles⟩ ⟨q, w, hq, hsettles⟩,
            fun k c htake' => ?_⟩⟩
          rw [← (htake.unique htake').1]
          exact ⟨hsettles, hq⟩
        · push Not at htake
          obtain ⟨w, hw⟩ := Option.isSome_iff_exists.mp (hsome name hmention)
          exact ⟨w, 0, fun _ => ⟨hw, fun j b h => absurd h (htake j b)⟩⟩
      · exact ⟨0, 0, fun h => absurd h hmention⟩
    choose value round hvalue using hname
    refine .intro value round hequate (fun name hname j b htake => ((hvalue name hname).2 j b
      htake).1) (fun name hname j b htake => ((hvalue name hname).2 j b htake).2)
      (fun name hname hnone => ?_) ?_
    · rw [← h.symbolAt_of_placed hopen hnone]
      exact (hvalue name hname).1
    · exact evaluateWith_congr heval fun name hname => (hvalue name hname).1.symm
  · intro hsettles
    have hbefore := hsettles.uses_before hequate
    obtain ⟨value, round, hequate', huses, -, hplaced, heval⟩ := hsettles
    obtain rfl := Option.some.inj (hequate.symm.trans hequate')
    refine evaluateWith_congr heval fun name hname => ?_
    by_cases htake : ∃ j b, S.Takes i a name j b
    · obtain ⟨j, b, htake⟩ := htake
      exact htaken name j b _ htake ⟨_, huses name hname j b htake⟩ (hbefore name hname j b htake)
    · push Not at htake
      rw [h.symbolAt_of_placed hopen htake]
      exact hplaced name hname htake

/-- The next place, when the equate there, if any, does not settle just now. -/
theorem advance (h : S.Records r i done s) (hplaced : S.placed r (i + 1) = S.placed r i)
    (hquiet : ∀ v, S.Settles r i v → S.SettledBefore r i i) :
    S.Records r (i + 1) done s := by
  refine ⟨fun j => ?_, h.values, h.ordered, h.equates, fun name hnil => ?_⟩
  · rw [h.settled j]
    constructor
    · exact fun hbefore => hbefore.mono (.inr ⟨rfl, Nat.le_succ i⟩)
    · rintro ⟨q, v, hq, hsettles⟩
      by_cases hj : j = i ∧ q = r
      · obtain ⟨rfl, rfl⟩ := hj
        exact hquiet v hsettles
      · exact ⟨q, v, by omega, hsettles⟩
  · rw [h.placed name hnil, hplaced]

theorem record (h : S.Records r i done s) (hlate : S.ReadsLate) (hequate : S.equate i = some a)
    (hplaced : S.placed r (i + 1) = S.placed r i) (hopen : ¬ S.SettledBefore r i i)
    (hsettles : S.Settles r i v) :
    S.Records r (i + 1) (done ++ [(i, v)]) (s.recordEquate a.name a.line v) := by
  have hlast : ∀ name, S.recorded [(i, v)] name =
      if a.name = name then [(a.line, v)] else [] := by
    intro name
    simp only [recorded, List.filterMap_cons, List.filterMap_nil, hequate, Option.bind_some]
    split <;> simp_all
  refine ⟨fun j => ?_, fun j w hmem => ?_, ?_, fun name => ?_, fun name hnil => ?_⟩
  · have hiff : (∃ w, (j, w) ∈ done ++ [(i, v)]) ↔ (∃ w, (j, w) ∈ done) ∨ j = i := by
      constructor
      · rintro ⟨w, hmem⟩
        rcases List.mem_append.mp hmem with hmem | hmem
        · exact .inl ⟨w, hmem⟩
        · exact .inr (congrArg Prod.fst (List.mem_singleton.mp hmem))
      · rintro (⟨w, hmem⟩ | rfl)
        · exact ⟨w, List.mem_append_left _ hmem⟩
        · exact ⟨v, List.mem_append_right _ (List.mem_singleton.mpr rfl)⟩
    rw [hiff, h.settled j]
    constructor
    · rintro (hbefore | rfl)
      · exact hbefore.mono (.inr ⟨rfl, Nat.le_succ i⟩)
      · exact ⟨r, v, .inr ⟨rfl, Nat.lt_succ_self _⟩, hsettles⟩
    · rintro ⟨q, w, hq, hw⟩
      by_cases hj : j = i
      · exact .inr hj
      · exact .inl ⟨q, w, by omega, hw⟩
  · rcases List.mem_append.mp hmem with hmem | hmem
    · exact h.values j w hmem
    · cases List.mem_singleton.mp hmem
      exact ⟨r, hsettles⟩
  · refine List.pairwise_append.mpr ⟨h.ordered, List.pairwise_singleton _ _, ?_⟩
    rintro ⟨k, w⟩ hk q hq b c hb hc hname hline
    rw [List.mem_singleton.mp hq] at hc ⊢
    have hbefore := (h.settled k).mp ⟨w, hk⟩
    show k < i
    by_contra hge
    rcases Nat.eq_or_lt_of_le (not_lt.mp hge) with rfl | hlt
    · exact hopen hbefore
    · -- a lower definition on the line has settled, so this one has
      rcases settledBefore_iff.mp hbefore with ⟨q, u, rfl, hu⟩ | ⟨hki, -⟩
      · obtain ⟨u', hu'⟩ := hlate.ordered i k c b hc hb hname.symm hline.symm hlt q u hu
        exact hopen ⟨q, u', .inl (Nat.lt_succ_self q), hu'⟩
      · omega
  · rw [recorded, List.filterMap_append]
    change _ = S.recorded done name ++ S.recorded [(i, v)] name
    rw [hlast name, Scope.recordEquate]
    by_cases hname : a.name = name
    · subst hname
      simp only [Function.update_self, h.equates, if_true]
    · simp only [Function.update_of_ne (Ne.symm hname), h.equates, if_neg hname, List.append_nil]
  · have hne : name ≠ a.name := by
      rintro rfl
      simp [Scope.recordEquate] at hnil
    rw [Scope.recordEquate] at hnil ⊢
    simp only [Function.update_of_ne hne] at hnil ⊢
    rw [h.placed name hnil, hplaced]

end Records

def SettledIn (S : Equates) (r i : Nat) : Prop := ∃ v, S.Settles r i v

theorem placed_succ (r i : Nat) : S.placed (r + 1) i = S.symbols := if_neg (Nat.succ_ne_zero r)

theorem Records.nextRound (h : S.Records (r + 1) S.entries.length done s) :
    S.Records (r + 2) 0 done s := by
  refine ⟨fun j => ?_, h.values, h.ordered, h.equates, fun name hnil => ?_⟩
  · rw [h.settled j]
    constructor
    · exact fun hbefore => hbefore.mono (.inl (Nat.lt_succ_self _))
    · rintro ⟨q, v, hq, hsettles⟩
      obtain ⟨a, hequate⟩ := hsettles.equate
      have hlt := equate_lt hequate
      exact ⟨q, v, by omega, hsettles⟩
  · rw [h.placed name hnil, placed_succ, placed_succ]

theorem pass_records (hlate : S.ReadsLate) {pending : List Assignment}
    (h : S.Records (r + 1) 0 done s)
    (hleft : Left S.equate (S.SettledIn r) 0 S.entries.length pending) :
    Left S.equate (S.SettledIn (r + 1)) 0 S.entries.length (pass Scope.attempt s pending).2 ∧
      ∃ done', S.Records (r + 2) 0 done' (pass Scope.attempt s pending).1 := by
  have hstay : ∀ i, S.placed (r + 1) (i + 1) = S.placed (r + 1) i := fun i => by
    rw [placed_succ, placed_succ]
  suffices hpass : Left S.equate (S.SettledIn (r + 1)) 0 S.entries.length
      (pass Scope.attempt s pending).2 ∧
      ∃ done', S.Records (r + 1) (0 + S.entries.length) done' (pass Scope.attempt s pending).1 by
    obtain ⟨hleft', done', hend⟩ := hpass
    rw [Nat.zero_add] at hend
    exact ⟨hleft', done', hend.nextRound⟩
  refine hleft.pass_left (fun i s => ∃ done, S.Records (r + 1) i done s) ⟨done, h⟩ ?_ ?_ ?_
  · rintro i ⟨v, hsettles⟩
    exact ⟨v, hsettles.mono (Nat.le_succ r)⟩
  · rintro i s ⟨done, h⟩ hquiet
    refine ⟨done, h.advance (hstay i) fun v hsettles => ?_⟩
    rcases hquiet with hnone | ⟨u, hu⟩
    · obtain ⟨a, hequate⟩ := hsettles.equate
      rw [hnone] at hequate
      cases hequate
    · exact ⟨r, u, .inl (Nat.lt_succ_self r), hu⟩
  · rintro i s a ⟨done, h⟩ hequate hopen
    have hbefore : ¬ S.SettledBefore (r + 1) i i := by
      rw [settledBefore_iff]
      rintro (⟨q, v, hq, hsettles⟩ | ⟨hlt, -⟩)
      · obtain rfl : r = q := by omega
        exact hopen ⟨v, hsettles⟩
      · exact lt_irrefl i hlt
    have hturn : ∀ v, tryEvaluateAt a s = some v ↔ S.Settles (r + 1) i v := fun v =>
      h.tryEvaluateAt_iff hlate hequate hbefore
    cases hvalue : tryEvaluateAt a s with
    | some v =>
        have hsettles := (hturn v).mp hvalue
        refine .inl ⟨⟨v, hsettles⟩, _, by rw [Scope.attempt, hvalue]; rfl, _,
          h.record hlate hequate (hstay i) hbefore hsettles⟩
    | none =>
        have hnot : ∀ v, ¬ S.Settles (r + 1) i v := by
          intro v hsettles
          rw [(hturn v).mpr hsettles] at hvalue
          cases hvalue
        refine .inr ⟨fun ⟨v, hv⟩ => hnot v hv, by rw [Scope.attempt, hvalue]; rfl, done,
          h.advance (hstay i) fun v hv => absurd hv (hnot v)⟩

/-- `n` rounds record what settles in them and leave the rest. -/
theorem passes_records (hlate : S.ReadsLate) {pending : List Assignment}
    (h : S.Records 1 0 done s)
    (hleft : Left S.equate (S.SettledIn 0) 0 S.entries.length pending) (n : Nat) :
    Left S.equate (S.SettledIn n) 0 S.entries.length
        (passes Scope.attempt n (s, pending)).2 ∧
      ∃ done', S.Records (n + 1) 0 done' (passes Scope.attempt n (s, pending)).1 := by
  induction n with
  | zero => exact ⟨hleft, done, h⟩
  | succ n ih =>
      obtain ⟨hleft', done', hrecords⟩ := ih
      rw [passes_succ]
      exact pass_records hlate hrecords hleft'

end Equates

end Playground
