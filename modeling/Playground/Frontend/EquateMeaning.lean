/-
What equates mean.  Each names the definitions `symbolAt` takes for it once all of them
stand: the nearest above its line, else the first.  The uses settle from the bottom up, and a
use of a definition further down the list waits for the next round.
-/
import Playground.Frontend.Equates
import Playground.Frontend.ExprGrammar

namespace Playground

/-- What placement walks over that has a name: a label at its address, or an equate. -/
inductive Entry where
  | label (name : String) (addr : Word)
  | equate (a : Assignment)
deriving DecidableEq

/-- The address of the label of a name. -/
def Entry.addrOf (name : String) : Entry → Option Word
  | .label name' addr => if name' = name then some addr else none
  | .equate _ => none

/-- The labels among the entries. -/
def labelled (entries : List Entry) : SymbolTable := fun name =>
  entries.findSome? (Entry.addrOf name)

/-- The names a body looks up. -/
def Assignment.mentions (a : Assignment) : List String :=
  match lex a.body.val a.line with
  | .ok tokens => tokens.filterMap fun tok => Expr.symbolName tok.kind
  | .error _ => []

/-- A body's value, its names looked up with `resolve`. -/
def Assignment.evaluateWith (a : Assignment) (resolve : String → Option Word) :
    Except EmuError Word := do
  let tokens ← lex a.body.val a.line
  evaluate tokens resolve a.here a.line

section Bodies

variable {a : Assignment} {resolve resolve' : String → Option Word} {v : Word}

theorem evaluateAt_eq (a : Assignment) (s : Scope) :
    a.evaluateAt s = a.evaluateWith fun name => s.symbolAt name a.line := rfl

/-- A body with a value looks up defined names only. -/
theorem resolve_of_evaluateWith (h : a.evaluateWith resolve = .ok v) :
    ∀ name ∈ a.mentions, (resolve name).isSome := by
  intro name hname
  unfold Assignment.evaluateWith at h
  unfold Assignment.mentions at hname
  cases hlex : lex a.body.val a.line with
  | error e =>
      rw [hlex] at h
      cases h
  | ok tokens =>
      rw [hlex] at h hname
      obtain ⟨tok, htok, hsymbol⟩ := List.mem_filterMap.mp hname
      exact Option.ne_none_iff_isSome.mp (Expr.resolve_of_evaluate h tok htok name hsymbol)

/-- Its value turns on what those names are. -/
theorem evaluateWith_congr (h : a.evaluateWith resolve = .ok v)
    (hnames : ∀ name ∈ a.mentions, resolve' name = resolve name) :
    a.evaluateWith resolve' = .ok v := by
  unfold Assignment.evaluateWith at h ⊢
  unfold Assignment.mentions at hnames
  cases hlex : lex a.body.val a.line with
  | error e =>
      rw [hlex] at h
      cases h
  | ok tokens =>
      rw [hlex] at h hnames
      refine Expr.evaluate_congr h fun tok htok name hsymbol => hnames name ?_
      exact List.mem_filterMap.mpr ⟨tok, htok, hsymbol⟩

end Bodies

/-- The labels and equates of a program in the order placement walks them, and the symbols it
is linked with. -/
structure Equates where
  entries : List Entry
  host : SymbolTable

namespace Equates

variable (S : Equates)

/-- The equate at a place of the list. -/
def equate (i : Nat) : Option Assignment :=
  match S.entries[i]? with
  | some (.equate a) => some a
  | _ => none

/-- Every label, and the symbols of the host that no label hides. -/
def symbols : SymbolTable := fun name => (labelled S.entries name).or (S.host name)

/-- What round `r` has for a name that is no equate when it comes to place `i`: round 0, the
walk itself, only has the labels above. -/
def placed (r i : Nat) : SymbolTable :=
  if r = 0 then labelled (S.entries.take i) else S.symbols

/-- Another definition of the name than the one at `i`. -/
def Other (i : Nat) (name : String) (j : Nat) (b : Assignment) : Prop :=
  j ≠ i ∧ S.equate j = some b ∧ b.name = name

/-- The definition `symbolAt` takes for a name in the equate at `i` once all stand: the nearest
at or above its line, the last of several on one line; or else the first of all. -/
def Takes (i : Nat) (a : Assignment) (name : String) (j : Nat) (b : Assignment) : Prop :=
  S.Other i name j b ∧
    ((b.line ≤ a.line ∧ ∀ k c, S.Other i name k c → c.line ≤ a.line →
        c.line < b.line ∨ c.line = b.line ∧ k ≤ j) ∨
      ∀ k c, S.Other i name k c →
        a.line < c.line ∧ (b.line < c.line ∨ b.line = c.line ∧ j ≤ k))

/-- The equate at `i` gets its value within round `r`: each name it uses is taken from a
definition that settles in an earlier round, or in the same round further up the list. -/
inductive Settles : Nat → Nat → Word → Prop
  | intro {r i : Nat} {a : Assignment} {v : Word} (value : String → Word) (round : String → Nat)
      (hequate : S.equate i = some a)
      (huses : ∀ name ∈ a.mentions, ∀ j b, S.Takes i a name j b →
        Settles (round name) j (value name))
      (hbefore : ∀ name ∈ a.mentions, ∀ j b, S.Takes i a name j b →
        round name < r ∨ round name = r ∧ j < i)
      (hplaced : ∀ name ∈ a.mentions, (∀ j b, ¬ S.Takes i a name j b) →
        S.placed r i name = some (value name))
      (heval : a.evaluateWith (fun name => some (value name)) = .ok v) : Settles r i v

/-- The value of an equate, if its uses end in labels and numbers and its body evaluates. -/
def Denotes (i : Nat) (v : Word) : Prop := ∃ r, S.Settles r i v

/-- Settled when round `r` comes to place `i`. -/
def SettledBefore (r i j : Nat) : Prop :=
  ∃ r' v, (r' < r ∨ r' = r ∧ j < i) ∧ S.Settles r' j v

/-- A name has some value when round `r` comes to place `i`. -/
def Known (r i : Nat) (name : String) : Prop :=
  (S.placed r i name).isSome ∨ ∃ j b, S.Other i name j b ∧ S.SettledBefore r i j

/-- No equate is read early: whenever each name it uses has some value, it has the one
`symbolAt` takes in the end.  Of two definitions on one line the upper one settles no later. -/
structure ReadsLate : Prop where
  late : ∀ r i a, S.equate i = some a → (∀ name ∈ a.mentions, S.Known r i name) →
    ∀ name ∈ a.mentions, ∀ j b, S.Takes i a name j b → S.SettledBefore r i j
  ordered : ∀ j k b c, S.equate j = some b → S.equate k = some c → b.name = c.name →
    b.line = c.line → j < k → ∀ r v, S.Settles r k v → ∃ w, S.Settles r j w

def Uses (i j : Nat) : Prop :=
  ∃ a b name, S.equate i = some a ∧ name ∈ a.mentions ∧ S.Takes i a name j b

/-- No equate uses itself, through others or not. -/
def Acyclic : Prop := ∀ i, ¬ Relation.TransGen S.Uses i i

/-- Every name an equate uses is an equate, a label or a symbol of the host. -/
def Defined : Prop :=
  ∀ i a, S.equate i = some a → ∀ name ∈ a.mentions,
    (∃ j b, S.Other i name j b) ∨ (S.symbols name).isSome

def Worth (i : Nat) (a : Assignment) (name : String) (w : Word) : Prop :=
  (∃ j b, S.Takes i a name j b ∧ S.Denotes j w) ∨
    (∀ j b, ¬ S.Takes i a name j b) ∧ S.symbols name = some w

/-- Every body is an expression with a value: no divisor is zero and every shift count fits. -/
def Evaluable : Prop :=
  ∀ i a, S.equate i = some a → ∀ value : String → Word,
    (∀ name ∈ a.mentions, S.Worth i a name (value name)) →
    ∃ v, a.evaluateWith (fun name => some (value name)) = .ok v

section Uses

variable {S : Equates} {r r' i j k : Nat} {a b c : Assignment} {name : String} {v v' : Word}

theorem equate_lt (h : S.equate i = some a) : i < S.entries.length := by
  by_contra hge
  rw [equate, List.getElem?_eq_none (not_lt.mp hge)] at h
  cases h

/-- One definition at most is taken. -/
theorem Takes.unique (h : S.Takes i a name j b) (h' : S.Takes i a name k c) : j = k ∧ b = c := by
  obtain ⟨hb, htake⟩ := h
  obtain ⟨hc, htake'⟩ := h'
  have hjk : j = k := by
    rcases htake with ⟨hle, hmax⟩ | hfirst
    · rcases htake' with ⟨hle', hmax'⟩ | hfirst'
      · have h1 := hmax k c hc hle'
        have h2 := hmax' j b hb hle
        omega
      · have h1 := (hfirst' j b hb).1
        omega
    · have h1 := hfirst k c hc
      rcases htake' with ⟨hle', hmax'⟩ | hfirst'
      · omega
      · have h2 := hfirst' j b hb
        omega
  subst hjk
  exact ⟨rfl, Option.some.inj (hb.2.1.symm.trans hc.2.1)⟩

/-- A name that some other equate defines is taken from one of them. -/
theorem exists_takes (h : S.Other i name k c) : ∃ j b, S.Takes i a name j b := by
  classical
  -- the definitions there are, and the order `symbolAt` goes by
  let lineOf : Nat → Nat := fun j => ((S.equate j).map Assignment.line).getD 0
  let others := (Finset.range S.entries.length).filter fun j => ∃ b, S.Other i name j b
  have hmem : ∀ j b, S.Other i name j b → j ∈ others ∧ lineOf j = b.line := by
    intro j b hb
    refine ⟨Finset.mem_filter.mpr ⟨Finset.mem_range.mpr (equate_lt hb.2.1), b, hb⟩, ?_⟩
    show ((S.equate j).map Assignment.line).getD 0 = b.line
    rw [hb.2.1]
    rfl
  by_cases habove : ∃ j b, S.Other i name j b ∧ b.line ≤ a.line
  · obtain ⟨j₀, b₀, hb₀, hle₀⟩ := habove
    have hnonempty : (others.filter fun j => lineOf j ≤ a.line).Nonempty := by
      refine ⟨j₀, Finset.mem_filter.mpr ⟨(hmem j₀ b₀ hb₀).1, ?_⟩⟩
      rw [(hmem j₀ b₀ hb₀).2]
      exact hle₀
    obtain ⟨j, hj, hmax⟩ := Finset.exists_max_image _ (fun j => toLex (lineOf j, j)) hnonempty
    obtain ⟨hjmem, hjle⟩ := Finset.mem_filter.mp hj
    obtain ⟨-, b, hb⟩ := Finset.mem_filter.mp hjmem
    have hline := (hmem j b hb).2
    refine ⟨j, b, hb, .inl ⟨hline ▸ hjle, fun k c hc hle => ?_⟩⟩
    have hclass := hmem k c hc
    have hkmax := hmax k (Finset.mem_filter.mpr ⟨hclass.1, by rw [hclass.2]; exact hle⟩)
    rw [Prod.Lex.toLex_le_toLex, hclass.2, hline] at hkmax
    exact hkmax
  · push Not at habove
    obtain ⟨j, hj, hmin⟩ := Finset.exists_min_image others (fun j => toLex (lineOf j, j))
      ⟨k, (hmem k c h).1⟩
    obtain ⟨-, b, hb⟩ := Finset.mem_filter.mp hj
    have hline := (hmem j b hb).2
    refine ⟨j, b, hb, .inr fun k c hc => ⟨habove k c hc, ?_⟩⟩
    have hclass := hmem k c hc
    have hkmin := hmin k hclass.1
    rw [Prod.Lex.toLex_le_toLex, hclass.2, hline] at hkmin
    exact hkmin

theorem symbols_of_placed (h : S.placed r i name = some v) : S.symbols name = some v := by
  unfold placed at h
  split at h
  · have hall : labelled S.entries name = some v := by
      rw [labelled, ← List.take_append_drop i S.entries, List.findSome?_append]
      rw [labelled] at h
      rw [h, Option.some_or]
    rw [symbols, hall, Option.some_or]
  · exact h

theorem placed_mono (hle : r ≤ r') (h : S.placed r i name = some v) :
    S.placed r' i name = some v := by
  rcases Nat.eq_zero_or_pos r' with hzero | hpos
  · obtain rfl : r = r' := by omega
    exact h
  · rw [placed, if_neg hpos.ne']
    exact symbols_of_placed h

theorem Settles.mono (h : S.Settles r i v) (hle : r ≤ r') : S.Settles r' i v := by
  obtain ⟨value, round, hequate, huses, hbefore, hplaced, heval⟩ := h
  refine .intro value round hequate huses (fun name hname j b htake => ?_)
    (fun name hname hnone => placed_mono hle (hplaced name hname hnone)) heval
  have hround := hbefore name hname j b htake
  omega

/-- An equate has one value at most. -/
theorem Settles.unique (h : S.Settles r i v) (h' : S.Settles r' i v') : v = v' := by
  induction h generalizing r' v' with
  | @intro r i a v value round hequate huses hbefore hplaced heval ih =>
      obtain ⟨value', round', hequate', huses', -, hplaced', heval'⟩ := h'
      obtain rfl := Option.some.inj (hequate.symm.trans hequate')
      have hvalues : ∀ name ∈ a.mentions, value name = value' name := by
        intro name hname
        by_cases htake : ∃ j b, S.Takes i a name j b
        · obtain ⟨j, b, htake⟩ := htake
          exact ih name hname j b htake (huses' name hname j b htake)
        · push Not at htake
          have hsymbol := symbols_of_placed (hplaced name hname htake)
          have hsymbol' := symbols_of_placed (hplaced' name hname htake)
          exact Option.some.inj (hsymbol.symm.trans hsymbol')
      have heval := evaluateWith_congr heval fun name hname =>
        congrArg some (hvalues name hname).symm
      rw [heval] at heval'
      exact Except.ok.inj heval'

theorem SettledBefore.mono (h : S.SettledBefore r i j) (hle : r < r' ∨ r = r' ∧ i ≤ k) :
    S.SettledBefore r' k j := by
  obtain ⟨q, v, hbefore, hsettles⟩ := h
  exact ⟨q, v, by omega, hsettles⟩

/-- What has settled before round `r` comes to `i` has settled in that round or the last. -/
theorem settledBefore_iff :
    S.SettledBefore r i j ↔
      (∃ q v, r = q + 1 ∧ S.Settles q j v) ∨ j < i ∧ ∃ v, S.Settles r j v := by
  constructor
  · rintro ⟨r', v, hr | ⟨rfl, hlt⟩, hsettles⟩
    · exact .inl ⟨r - 1, v, by omega, hsettles.mono (by omega)⟩
    · exact .inr ⟨hlt, v, hsettles⟩
  · rintro (⟨q, v, rfl, hsettles⟩ | ⟨hlt, v, hsettles⟩)
    · exact ⟨q, v, .inl (Nat.lt_succ_self q), hsettles⟩
    · exact ⟨r, v, .inr ⟨rfl, hlt⟩, hsettles⟩

theorem Settles.equate (h : S.Settles r i v) : ∃ a, S.equate i = some a := by
  obtain ⟨-, -, hequate, -⟩ := h
  exact ⟨_, hequate⟩

theorem Settles.uses_before (h : S.Settles r i v) (hequate : S.equate i = some a) :
    ∀ name ∈ a.mentions, ∀ j b, S.Takes i a name j b → S.SettledBefore r i j := by
  obtain ⟨value, round, hequate', huses, hbefore, -, -⟩ := h
  obtain rfl := Option.some.inj (hequate.symm.trans hequate')
  exact fun name hname j b htake =>
    ⟨round name, value name, hbefore name hname j b htake, huses name hname j b htake⟩

end Uses

section Meaning

variable {S : Equates}

theorem uses_wellFounded (h : S.Acyclic) :
    WellFounded fun j i : Fin S.entries.length => Relation.TransGen S.Uses i j := by
  have htrans : IsTrans (Fin S.entries.length) fun j i => Relation.TransGen S.Uses i j :=
    ⟨fun _ _ _ hji hkj => hkj.trans hji⟩
  have hirrefl : Std.Irrefl fun j i : Fin S.entries.length => Relation.TransGen S.Uses i j :=
    ⟨fun i => h i⟩
  exact Finite.wellFounded_of_trans_of_irrefl _

/-- Equates with no cycle, no unknown name and no body without a value all have one. -/
theorem denotes_of_acyclic (hacyclic : S.Acyclic) (hdefined : S.Defined)
    (hevaluable : S.Evaluable) {i : Nat} {a : Assignment} (hequate : S.equate i = some a) :
    ∃ v, S.Denotes i v := by
  suffices hall : ∀ i : Fin S.entries.length, ∀ a, S.equate i = some a → ∃ v, S.Denotes i v from
    hall ⟨i, equate_lt hequate⟩ a hequate
  intro i
  induction i using (uses_wellFounded hacyclic).induction with
  | _ i ih =>
      intro a hequate
      have hname : ∀ name, ∃ w r, name ∈ a.mentions →
          (∀ j b, S.Takes i a name j b → S.Settles r j w) ∧
            ((∀ j b, ¬ S.Takes i a name j b) → S.symbols name = some w) := by
        intro name
        by_cases hmention : name ∈ a.mentions
        · by_cases htake : ∃ j b, S.Takes i a name j b
          · obtain ⟨j, b, htake⟩ := htake
            have huse : S.Uses i j := ⟨a, b, name, hequate, hmention, htake⟩
            obtain ⟨w, r, hsettles⟩ :=
              ih ⟨j, equate_lt htake.1.2.1⟩ (.single huse) b htake.1.2.1
            refine ⟨w, r, fun _ => ⟨fun k c htake' => ?_, fun hnone => absurd htake (hnone j b)⟩⟩
            rwa [← (htake.unique htake').1]
          · push Not at htake
            have hsome : (S.symbols name).isSome := by
              refine (hdefined i a hequate name hmention).resolve_left ?_
              rintro ⟨j, b, hother⟩
              obtain ⟨k, c, htake'⟩ := exists_takes (a := a) hother
              exact htake k c htake'
            obtain ⟨w, hw⟩ := Option.isSome_iff_exists.mp hsome
            exact ⟨w, 0, fun _ => ⟨fun j b h => absurd h (htake j b), fun _ => hw⟩⟩
        · exact ⟨0, 0, fun h => absurd h hmention⟩
      choose value round hvalue using hname
      obtain ⟨v, heval⟩ := hevaluable i a hequate value fun name hmention => by
        obtain ⟨htaken, hplaced⟩ := hvalue name hmention
        by_cases htake : ∃ j b, S.Takes i a name j b
        · obtain ⟨j, b, htake⟩ := htake
          exact .inl ⟨j, b, htake, _, htaken j b htake⟩
        · push Not at htake
          exact .inr ⟨htake, hplaced htake⟩
      -- one round past those of the names used
      refine ⟨v, a.mentions.toFinset.sup round + 1, .intro value round hequate
        (fun name hmention => (hvalue name hmention).1) (fun name hmention j b _ => .inl ?_)
        (fun name hmention hnone => ?_) heval⟩
      · exact Nat.lt_succ_of_le (Finset.le_sup (List.mem_toFinset.mpr hmention))
      · rw [placed, if_neg (Nat.succ_ne_zero _)]
        exact (hvalue name hmention).2 hnone

end Meaning

end Equates

end Playground
