/-
Expressions of left-associative binary operators in levels over prefix operators,
parentheses and atoms: their grammar, and the recursive descent that evaluates them.
-/
import Mathlib.Data.List.Basic
import Mathlib.Order.Basic

namespace Precedence

variable {τ α : Type}

/-- What a token is at the start of an operand. -/
inductive Role
  | atom
  | unary
  | opens
  | other
deriving DecidableEq

/-- The tokens of a grammar.  The operators of level 0 bind tightest; what closes a
parenthesis is no operator. -/
structure Grammar (τ : Type) where
  levels : Nat
  role : τ → Role
  closes : τ → Bool
  level : τ → Option Nat
  level_closes : ∀ k, closes k = true → level k = none

inductive Term (τ : Type)
  | atom (k : τ)
  | unary (k : τ) (operand : Term τ)
  | group (first last : τ) (inner : Term τ)
  | binary (k : τ) (left right : Term τ)

/-- The tree and the tokens of an expression of a level: level 0 is an operand, and level
`n + 1` is operands of level `n` with the operators of level `n` between them, grouped from the
left. -/
inductive Derives (g : Grammar τ) : Nat → Term τ → List τ → Prop
  | atom {k : τ} (hk : g.role k = .atom) : Derives g 0 (.atom k) [k]
  | unary {k : τ} {t : Term τ} {ks : List τ} (hk : g.role k = .unary) (h : Derives g 0 t ks) :
      Derives g 0 (.unary k t) (k :: ks)
  | group {k k' : τ} {t : Term τ} {ks : List τ} (hk : g.role k = .opens)
      (h : Derives g g.levels t ks) (hk' : g.closes k' = true) :
      Derives g 0 (.group k k' t) (k :: (ks ++ [k']))
  | operand {n : Nat} {t : Term τ} {ks : List τ} (h : Derives g n t ks) : Derives g (n + 1) t ks
  | binary {n : Nat} {k : τ} {l r : Term τ} {ks ks' : List τ} (hl : Derives g (n + 1) l ks)
      (hk : g.level k = some n) (hr : Derives g n r ks') :
      Derives g (n + 1) (.binary k l r) (ks ++ k :: ks')

/-- Parentheses and prefix operators inside one another. -/
def Term.nesting : Term τ → Nat
  | .atom _ => 0
  | .unary _ t => t.nesting + 1
  | .group _ _ t => t.nesting + 1
  | .binary _ l r => max l.nesting r.nesting

/-- What the parts of an expression mean, if they mean anything. -/
structure Meaning (τ α : Type) where
  atom : τ → Option α
  unary : τ → α → Option α
  group : τ → τ → α → Option α
  binary : τ → α → α → Option α

def Term.value (meaning : Meaning τ α) : Term τ → Option α
  | .atom k => meaning.atom k
  | .unary k t => (t.value meaning).bind (meaning.unary k)
  | .group k k' t => (t.value meaning).bind (meaning.group k k')
  | .binary k l r =>
      (l.value meaning).bind fun a => (r.value meaning).bind fun b => meaning.binary k a b

/-- An expression and the expressions inside it. -/
def Term.parts : Term τ → List (Term τ)
  | .atom k => [.atom k]
  | .unary k t => .unary k t :: t.parts
  | .group k k' t => .group k k' t :: t.parts
  | .binary k l r => .binary k l r :: (l.parts ++ r.parts)

/-- `operand (op operand)*` from a left operand on; `n` bounds the operators. -/
def chain (operand : List τ → Option (α × List τ)) (op : τ → Option (α → α → Option α)) :
    Nat → α → List τ → Option (α × List τ)
  | n + 1, left, k :: rest =>
      match op k with
      | none => some (left, k :: rest)
      | some f =>
          (operand rest).bind fun right =>
            (f left right.1).bind fun left => chain operand op n left right.2
  | _, left, ks => some (left, ks)

section Parse

variable (g : Grammar τ) (meaning : Meaning τ α)

/-- The operators of a level. -/
def opAt (n : Nat) (k : τ) : Option (α → α → Option α) :=
  if g.level k = some n then some (meaning.binary k) else none

def parseLevel (operand : List τ → Option (α × List τ)) : Nat → List τ → Option (α × List τ)
  | 0, ks => operand ks
  | n + 1, ks =>
      (parseLevel operand n ks).bind fun left =>
        chain (parseLevel operand n) (opAt g meaning n) left.2.length left.1 left.2

/-- The token that closes a parenthesis. -/
def parseClose (k : τ) : α × List τ → Option (α × List τ)
  | (value, k' :: rest) =>
      if g.closes k' then (meaning.group k k' value).map fun value => (value, rest) else none
  | (_, []) => none

/-- An operand; `depth` levels of nesting are left. -/
def parseOperand : Nat → List τ → Option (α × List τ)
  | _, [] => none
  | depth, k :: rest =>
      match g.role k, depth with
      | .atom, _ => (meaning.atom k).map fun value => (value, rest)
      | .unary, depth + 1 =>
          (parseOperand depth rest).bind fun inner =>
            (meaning.unary k inner.1).map fun value => (value, inner.2)
      | .opens, depth + 1 =>
          (parseLevel g meaning (parseOperand depth) g.levels rest).bind (parseClose g meaning k)
      | _, _ => none

end Parse

variable {g : Grammar τ} {meaning : Meaning τ α}

section Operand

variable {depth : Nat} {k : τ} {rest : List τ}

theorem parseOperand_atom (hk : g.role k = .atom) : parseOperand g meaning depth (k :: rest) =
    (meaning.atom k).map fun value => (value, rest) := by
  unfold parseOperand
  simp only [hk]

theorem parseOperand_unary (hk : g.role k = .unary) :
    parseOperand g meaning (depth + 1) (k :: rest) =
      (parseOperand g meaning depth rest).bind fun inner =>
        (meaning.unary k inner.1).map fun value => (value, inner.2) := by
  conv_lhs => unfold parseOperand
  simp only [hk]

theorem parseOperand_opens (hk : g.role k = .opens) :
    parseOperand g meaning (depth + 1) (k :: rest) =
      (parseLevel g meaning (parseOperand g meaning depth) g.levels rest).bind
        (parseClose g meaning k) := by
  conv_lhs => unfold parseOperand
  simp only [hk]

/-- Nothing else is an operand, nor what nests too deep. -/
theorem parseOperand_none (hatom : g.role k ≠ .atom)
    (h : depth = 0 ∨ (g.role k ≠ .unary ∧ g.role k ≠ .opens)) :
    parseOperand g meaning depth (k :: rest) = none := by
  unfold parseOperand
  cases hk : g.role k with
  | atom => exact absurd hk hatom
  | other => rfl
  | unary =>
      cases depth with
      | zero => rfl
      | succ depth => exact absurd hk (h.resolve_left (Nat.succ_ne_zero depth)).1
  | opens =>
      cases depth with
      | zero => rfl
      | succ depth => exact absurd hk (h.resolve_left (Nat.succ_ne_zero depth)).2

end Operand

section Sound

/-- What is parsed is an expression with its value. -/
def Sound (g : Grammar τ) (meaning : Meaning τ α) (depth n : Nat)
    (parse : List τ → Option (α × List τ)) : Prop :=
  ∀ toks v rest, parse toks = some (v, rest) → ∃ t ks, toks = ks ++ rest ∧ Derives g n t ks ∧
    t.nesting ≤ depth ∧ t.value meaning = some v

theorem sound_chain {depth n : Nat} {operand : List τ → Option (α × List τ)}
    (hoperand : Sound g meaning depth n operand) (fuel : Nat) {left v : α} {toks rest : List τ}
    (h : chain operand (opAt g meaning n) fuel left toks = some (v, rest)) {l : Term τ}
    {ks : List τ} (hl : Derives g (n + 1) l ks) (hdepth : l.nesting ≤ depth)
    (hvalue : l.value meaning = some left) :
    ∃ t more, toks = more ++ rest ∧ Derives g (n + 1) t (ks ++ more) ∧ t.nesting ≤ depth ∧
      t.value meaning = some v := by
  induction fuel generalizing left toks l ks with
  | zero =>
      cases h
      exact ⟨l, [], rfl, by rwa [List.append_nil], hdepth, hvalue⟩
  | succ fuel ih =>
      cases toks with
      | nil =>
          cases h
          exact ⟨l, [], rfl, by rwa [List.append_nil], hdepth, hvalue⟩
      | cons k toks =>
          rw [chain, opAt] at h
          by_cases hk : g.level k = some n
          · rw [if_pos hk] at h
            obtain ⟨⟨right, after⟩, hright, hnext⟩ := Option.bind_eq_some_iff.mp h
            obtain ⟨left', hleft', hrest⟩ := Option.bind_eq_some_iff.mp hnext
            obtain ⟨r, ks', rfl, hr, hrdepth, hrvalue⟩ := hoperand _ _ _ hright
            have hvalue' : (Term.binary k l r).value meaning = some left' := by
              rw [Term.value, hvalue, hrvalue]
              exact hleft'
            obtain ⟨t, more, rfl, ht, htdepth, htvalue⟩ :=
              ih hrest (.binary hl hk hr) (Nat.max_le.mpr ⟨hdepth, hrdepth⟩) hvalue'
            refine ⟨t, k :: (ks' ++ more), by simp, ?_, htdepth, htvalue⟩
            rwa [List.append_assoc, List.cons_append] at ht
          · rw [if_neg hk] at h
            cases h
            exact ⟨l, [], rfl, by rwa [List.append_nil], hdepth, hvalue⟩

theorem sound_parseLevel {depth : Nat} {operand : List τ → Option (α × List τ)}
    (hoperand : Sound g meaning depth 0 operand) (n : Nat) :
    Sound g meaning depth n (parseLevel g meaning operand n) := by
  induction n with
  | zero => exact hoperand
  | succ n ih =>
      intro toks v rest h
      obtain ⟨⟨left, after⟩, hleft, hchain⟩ := Option.bind_eq_some_iff.mp h
      obtain ⟨l, ks, rfl, hl, hdepth, hvalue⟩ := ih _ _ _ hleft
      obtain ⟨t, more, rfl, ht, htdepth, htvalue⟩ :=
        sound_chain ih _ hchain hl.operand hdepth hvalue
      exact ⟨t, ks ++ more, by rw [List.append_assoc], ht, htdepth, htvalue⟩

theorem sound_parseOperand (depth : Nat) :
    Sound g meaning depth 0 (parseOperand g meaning depth) := by
  have hatom : ∀ {depth k rest v after}, g.role k = .atom →
      parseOperand g meaning depth (k :: rest) = some (v, after) →
      ∃ t ks, k :: rest = ks ++ after ∧ Derives g 0 t ks ∧ t.nesting ≤ depth ∧
        t.value meaning = some v := by
    intro depth k rest v after hk h
    rw [parseOperand_atom hk] at h
    obtain ⟨value, hvalue, hpair⟩ := Option.map_eq_some_iff.mp h
    cases hpair
    exact ⟨.atom k, [k], rfl, .atom hk, Nat.zero_le _, hvalue⟩
  induction depth with
  | zero =>
      intro toks v rest h
      cases toks with
      | nil => cases h
      | cons k toks =>
          by_cases hk : g.role k = .atom
          · exact hatom hk h
          · rw [parseOperand_none hk (.inl rfl)] at h
            cases h
  | succ depth ih =>
      intro toks v rest h
      cases toks with
      | nil => cases h
      | cons k toks =>
          cases hk : g.role k with
          | atom => exact hatom hk h
          | other =>
              rw [parseOperand_none (by rw [hk]; decide) (.inr (by rw [hk]; decide))] at h
              cases h
          | unary =>
              rw [parseOperand_unary hk] at h
              obtain ⟨⟨inner, after⟩, hinner, hmap⟩ := Option.bind_eq_some_iff.mp h
              obtain ⟨value, hvalue, hpair⟩ := Option.map_eq_some_iff.mp hmap
              cases hpair
              obtain ⟨t, ks, rfl, ht, hnesting, htvalue⟩ := ih _ _ _ hinner
              refine ⟨.unary k t, k :: ks, rfl, .unary hk ht, Nat.succ_le_succ hnesting, ?_⟩
              rw [Term.value, htvalue]
              exact hvalue
          | opens =>
              rw [parseOperand_opens hk] at h
              obtain ⟨⟨inner, after⟩, hinner, hclose⟩ := Option.bind_eq_some_iff.mp h
              obtain ⟨t, ks, rfl, ht, hnesting, htvalue⟩ := sound_parseLevel ih _ _ _ _ hinner
              cases after with
              | nil => cases hclose
              | cons k' after =>
                  rw [parseClose] at hclose
                  split at hclose
                  · rename_i hk'
                    obtain ⟨value, hvalue, hpair⟩ := Option.map_eq_some_iff.mp hclose
                    cases hpair
                    refine ⟨.group k k' t, k :: (ks ++ [k']), by simp, .group hk ht hk',
                      Nat.succ_le_succ hnesting, ?_⟩
                    rw [Term.value, htvalue]
                    exact hvalue
                  · cases hclose

end Sound

section Complete

variable {depth : Nat}

/-- No operator of a level below `n` comes next. -/
def Stops (g : Grammar τ) (n : Nat) (rest : List τ) : Prop :=
  ∀ k ∈ rest.head?, ∀ l, g.level k = some l → n ≤ l

theorem Stops.mono {m n : Nat} {rest : List τ} (h : Stops g n rest) (hle : m ≤ n) :
    Stops g m rest := fun k hk l hl => Nat.le_trans hle (h k hk l hl)

/-- What a level does once its first operand is parsed. -/
def resume (g : Grammar τ) (meaning : Meaning τ α) (operand : List τ → Option (α × List τ)) :
    Nat → α → List τ → Option (α × List τ)
  | 0, v, rest => some (v, rest)
  | n + 1, v, rest =>
      chain (parseLevel g meaning operand n) (opAt g meaning n) rest.length v rest

theorem chain_of_stops {operand : List τ → Option (α × List τ)} {n fuel : Nat} {v : α}
    {rest : List τ} (h : Stops g (n + 1) rest) :
    chain operand (opAt g meaning n) fuel v rest = some (v, rest) := by
  cases fuel with
  | zero => rw [chain]; rintro _ _ _ ⟨⟩
  | succ fuel =>
      cases rest with
      | nil => rfl
      | cons k rest =>
          have hk : g.level k ≠ some n := fun hk => absurd (h k rfl n hk) (by omega)
          rw [chain, opAt, if_neg hk]

theorem resume_of_stops {operand : List τ → Option (α × List τ)} {n : Nat} {v : α}
    {rest : List τ} (h : Stops g n rest) : resume g meaning operand n v rest = some (v, rest) := by
  cases n with
  | zero => rfl
  | succ n => exact chain_of_stops h

/-- Fuel for every token is enough. -/
theorem chain_fuel {n fuel fuel' : Nat} {v : α} {ks : List τ} (hfuel : ks.length ≤ fuel)
    (hfuel' : ks.length ≤ fuel') {operand : List τ → Option (α × List τ)}
    (hoperand : Sound g meaning depth n operand) :
    chain operand (opAt g meaning n) fuel v ks = chain operand (opAt g meaning n) fuel' v ks := by
  induction fuel generalizing fuel' v ks with
  | zero =>
      obtain rfl := List.length_eq_zero_iff.mp (Nat.le_zero.mp hfuel)
      cases fuel' <;> rfl
  | succ fuel ih =>
      cases ks with
      | nil => cases fuel' <;> rfl
      | cons k ks =>
          cases fuel' with
          | zero => cases hfuel'
          | succ fuel' =>
              rw [List.length_cons] at hfuel hfuel'
              rw [chain, chain]
              cases opAt g meaning n k with
              | none => rfl
              | some f =>
                  simp only []
                  cases hright : operand ks with
                  | none => rfl
                  | some right =>
                      obtain ⟨t, used, rfl, -⟩ := hoperand ks right.1 right.2 hright
                      rw [List.length_append] at hfuel hfuel'
                      simp only [Option.bind_some]
                      cases f v right.1 with
                      | none => rfl
                      | some left => exact ih (by omega) (by omega)

/-- An expression that nests no deeper than allowed is parsed to its value. -/
theorem complete {n : Nat} {t : Term τ} {ks : List τ} (h : Derives g n t ks) {v : α}
    (hdepth : t.nesting ≤ depth) (hvalue : t.value meaning = some v) {rest : List τ}
    (hstops : Stops g (n - 1) rest) :
    parseLevel g meaning (parseOperand g meaning depth) n (ks ++ rest) =
      resume g meaning (parseOperand g meaning depth) n v rest := by
  induction h generalizing depth v rest with
  | @atom k hk =>
      show parseOperand g meaning depth (k :: rest) = some (v, rest)
      rw [parseOperand_atom hk, show meaning.atom k = some v from hvalue]
      rfl
  | @unary k t ks hk _ ih =>
      obtain ⟨inner, hinner, hv⟩ := Option.bind_eq_some_iff.mp hvalue
      cases depth with
      | zero => cases hdepth
      | succ depth =>
          have hparse : parseOperand g meaning depth (ks ++ rest) = some (inner, rest) :=
            ih (Nat.le_of_succ_le_succ hdepth) hinner hstops
          show parseOperand g meaning (depth + 1) (k :: (ks ++ rest)) = some (v, rest)
          rw [parseOperand_unary hk, hparse, Option.bind_some, hv]
          rfl
  | @group k k' t ks hk _ hk' ih =>
      obtain ⟨inner, hinner, hv⟩ := Option.bind_eq_some_iff.mp hvalue
      cases depth with
      | zero => cases hdepth
      | succ depth =>
          have hclose : ∀ n, Stops g n (k' :: rest) := by
            intro n k hhead l hl
            cases hhead
            rw [g.level_closes k' hk'] at hl
            cases hl
          have hparse := ih (Nat.le_of_succ_le_succ hdepth) hinner (hclose _)
          rw [resume_of_stops (hclose _)] at hparse
          show parseOperand g meaning (depth + 1) (k :: (ks ++ [k'] ++ rest)) = some (v, rest)
          rw [parseOperand_opens hk, List.append_assoc, List.singleton_append, hparse,
            Option.bind_some, parseClose, if_pos hk', hv]
          rfl
  | @operand n t ks _ ih =>
      have hstops : Stops g n rest := hstops
      have hparse := ih hdepth hvalue (hstops.mono (Nat.sub_le n 1))
      rw [resume_of_stops hstops] at hparse
      rw [parseLevel, hparse]
      rfl
  | @binary n k l r ks ks' _ hk hr ihl ihr =>
      obtain ⟨a, ha, hvalue⟩ := Option.bind_eq_some_iff.mp hvalue
      obtain ⟨b, hb, hv⟩ := Option.bind_eq_some_iff.mp hvalue
      obtain ⟨hldepth, hrdepth⟩ := Nat.max_le.mp hdepth
      have hop : Stops g n (k :: (ks' ++ rest)) := by
        intro k₁ hhead m hm
        cases hhead
        rw [hk] at hm
        cases hm
        exact Nat.le_refl n
      have hstops : Stops g n rest := hstops
      have hright := ihr hrdepth hb (hstops.mono (Nat.sub_le n 1))
      rw [resume_of_stops hstops] at hright
      have hoperand : Sound g meaning depth 0 (parseOperand g meaning depth) :=
        sound_parseOperand depth
      have hsound := sound_parseLevel hoperand n
      rw [List.append_assoc, List.cons_append, ihl hldepth ha hop, resume, List.length_cons,
        chain, opAt, if_pos hk]
      simp only [hright, Option.bind_some, hv]
      exact chain_fuel (by rw [List.length_append]; omega) (Nat.le_refl _) hsound

end Complete

section Parts

/-- The atoms of an expression are its tokens that can be one. -/
theorem atom_mem_parts {n : Nat} {t : Term τ} {ks : List τ} (h : Derives g n t ks)
    (hatom : ∀ k, g.role k = .atom → g.closes k = false ∧ g.level k = none) {k : τ} :
    .atom k ∈ t.parts ↔ k ∈ ks ∧ g.role k = .atom := by
  induction h with
  | @atom k' hk =>
      rw [Term.parts, List.mem_singleton, List.mem_singleton, Term.atom.injEq]
      exact ⟨fun heq => ⟨heq, heq ▸ hk⟩, fun h => h.1⟩
  | @unary k' t ks hk _ ih =>
      have hne : k = k' → g.role k ≠ .atom := by rintro rfl; rw [hk]; decide
      rw [Term.parts, List.mem_cons, List.mem_cons, ih]
      simp only [reduceCtorEq, false_or]
      exact ⟨fun h => ⟨.inr h.1, h.2⟩, fun h => ⟨h.1.resolve_left (hne · h.2), h.2⟩⟩
  | @group k' k'' t ks hk _ hk' ih =>
      have hne : k = k' → g.role k ≠ .atom := by rintro rfl; rw [hk]; decide
      have hne' : k = k'' → g.role k ≠ .atom := by
        rintro rfl hrole
        rw [(hatom k hrole).1] at hk'
        cases hk'
      rw [Term.parts, List.mem_cons, List.mem_cons, List.mem_append, List.mem_singleton, ih]
      simp only [reduceCtorEq, false_or]
      exact ⟨fun h => ⟨.inr (.inl h.1), h.2⟩,
        fun h => ⟨(h.1.resolve_left (hne · h.2)).resolve_right (hne' · h.2), h.2⟩⟩
  | operand _ ih => exact ih
  | @binary n k' l r ks ks' _ hk _ ihl ihr =>
      have hne : k = k' → g.role k ≠ .atom := by
        rintro rfl hrole
        rw [(hatom k hrole).2] at hk
        cases hk
      rw [Term.parts, List.mem_cons, List.mem_append, List.mem_append, List.mem_cons, ihl, ihr]
      simp only [reduceCtorEq, false_or]
      constructor
      · rintro (h | h)
        · exact ⟨.inl h.1, h.2⟩
        · exact ⟨.inr (.inr h.1), h.2⟩
      · rintro ⟨h | h | h, hrole⟩
        · exact .inl ⟨h, hrole⟩
        · exact absurd hrole (hne h)
        · exact .inr ⟨h, hrole⟩

/-- An expression has a value if its atoms have one and its operators accept theirs. -/
theorem exists_value {t : Term τ}
    (hunary : ∀ k a, ∃ v, meaning.unary k a = some v)
    (hgroup : ∀ k k' a, ∃ v, meaning.group k k' a = some v)
    (hatom : ∀ k, .atom k ∈ t.parts → ∃ v, meaning.atom k = some v)
    (hbinary : ∀ k l r, .binary k l r ∈ t.parts → ∀ a b, l.value meaning = some a →
      r.value meaning = some b → ∃ v, meaning.binary k a b = some v) :
    ∃ v, t.value meaning = some v := by
  induction t with
  | atom k => exact hatom k (.head _)
  | unary k t ih =>
      obtain ⟨a, ha⟩ := ih (fun k hk => hatom k (.tail _ hk))
        fun k l r h => hbinary k l r (.tail _ h)
      rw [Term.value, ha]
      exact hunary k a
  | group k k' t ih =>
      obtain ⟨a, ha⟩ := ih (fun k hk => hatom k (.tail _ hk))
        fun k l r h => hbinary k l r (.tail _ h)
      rw [Term.value, ha]
      exact hgroup k k' a
  | binary k l r ihl ihr =>
      obtain ⟨a, ha⟩ := ihl
        (fun k hk => hatom k (.tail _ (List.mem_append_left _ hk)))
        fun k l r h => hbinary k l r (.tail _ (List.mem_append_left _ h))
      obtain ⟨b, hb⟩ := ihr
        (fun k hk => hatom k (.tail _ (List.mem_append_right _ hk)))
        fun k l r h => hbinary k l r (.tail _ (List.mem_append_right _ h))
      obtain ⟨v, hv⟩ := hbinary k l r (.head _) a b ha hb
      rw [Term.value, ha, Option.bind_some, hb]
      exact ⟨v, hv⟩

theorem value_of_mem_parts {t s : Term τ} (hmem : s ∈ t.parts) {v : α}
    (hv : t.value meaning = some v) : ∃ a, s.value meaning = some a := by
  induction t generalizing v with
  | atom k =>
      obtain rfl := List.mem_singleton.mp hmem
      exact ⟨v, hv⟩
  | unary k t ih =>
      obtain ⟨a, ha, -⟩ := Option.bind_eq_some_iff.mp hv
      obtain rfl | hmem := List.mem_cons.mp hmem
      · exact ⟨v, hv⟩
      · exact ih hmem ha
  | group k k' t ih =>
      obtain ⟨a, ha, -⟩ := Option.bind_eq_some_iff.mp hv
      obtain rfl | hmem := List.mem_cons.mp hmem
      · exact ⟨v, hv⟩
      · exact ih hmem ha
  | binary k l r ihl ihr =>
      obtain ⟨a, ha, hb⟩ := Option.bind_eq_some_iff.mp hv
      obtain ⟨b, hb, -⟩ := Option.bind_eq_some_iff.mp hb
      obtain rfl | hmem := List.mem_cons.mp hmem
      · exact ⟨v, hv⟩
      · obtain hmem | hmem := List.mem_append.mp hmem
        · exact ihl hmem ha
        · exact ihr hmem hb

theorem value_atom_congr {atom : τ → Option α} {t : Term τ}
    (h : ∀ k, .atom k ∈ t.parts → atom k = meaning.atom k) :
    t.value { meaning with atom := atom } = t.value meaning := by
  induction t with
  | atom k => exact h k List.mem_cons_self
  | unary k t ih => rw [Term.value, Term.value, ih fun k hk => h k (List.mem_cons_of_mem _ hk)]
  | group k k' t ih => rw [Term.value, Term.value, ih fun k hk => h k (List.mem_cons_of_mem _ hk)]
  | binary k l r ihl ihr =>
      rw [Term.value, Term.value,
        ihl fun k hk => h k (List.mem_cons_of_mem _ (List.mem_append_left _ hk)),
        ihr fun k hk => h k (List.mem_cons_of_mem _ (List.mem_append_right _ hk))]

end Parts

section Parse

/-- A whole expression. -/
def parse (g : Grammar τ) (meaning : Meaning τ α) (depth : Nat) (ks : List τ) : Option α :=
  (parseLevel g meaning (parseOperand g meaning depth) g.levels ks).bind fun result =>
    if result.2.isEmpty then some result.1 else none

theorem stops_nil {n : Nat} : Stops g n [] := by
  rintro k ⟨⟩

/-- The descent finds the value of an expression, and of nothing else. -/
theorem parse_eq_some_iff {depth : Nat} {ks : List τ} {v : α} :
    parse g meaning depth ks = some v ↔
      ∃ t, Derives g g.levels t ks ∧ t.nesting ≤ depth ∧ t.value meaning = some v := by
  constructor
  · intro h
    obtain ⟨⟨value, rest⟩, hparse, hend⟩ := Option.bind_eq_some_iff.mp h
    cases rest with
    | cons k rest => cases hend
    | nil =>
        cases hend
        obtain ⟨t, ks', rfl, ht, hdepth, hvalue⟩ :=
          sound_parseLevel (sound_parseOperand depth) g.levels _ _ _ hparse
        rw [List.append_nil]
        exact ⟨t, ht, hdepth, hvalue⟩
  · rintro ⟨t, ht, hdepth, hvalue⟩
    have hparse := complete ht hdepth hvalue stops_nil
    rw [List.append_nil, resume_of_stops stops_nil] at hparse
    rw [parse, hparse]
    rfl

/-- Every part of an expression means itself. -/
def free (τ : Type) : Meaning τ (Term τ) where
  atom k := some (.atom k)
  unary k t := some (.unary k t)
  group k k' t := some (.group k k' t)
  binary k l r := some (.binary k l r)

theorem value_free (t : Term τ) : t.value (free τ) = some t := by
  induction t with
  | atom k => rfl
  | unary k t ih => rw [Term.value, ih]; rfl
  | group k k' t ih => rw [Term.value, ih]; rfl
  | binary k l r ihl ihr => rw [Term.value, ihl, ihr]; rfl

/-- Tokens have one tree at most. -/
theorem derives_unique {t t' : Term τ} {ks : List τ} (h : Derives g g.levels t ks)
    (h' : Derives g g.levels t' ks) : t = t' := by
  have hparse : ∀ {t : Term τ}, Derives g g.levels t ks → ∀ {depth}, t.nesting ≤ depth →
      parse g (free τ) depth ks = some t := fun ht _ hdepth =>
    parse_eq_some_iff.mpr ⟨_, ht, hdepth, value_free _⟩
  have heq := hparse h (Nat.le_max_left t.nesting t'.nesting)
  rw [hparse h' (Nat.le_max_right t.nesting t'.nesting)] at heq
  exact (Option.some.inj heq).symm

end Parse

end Precedence
