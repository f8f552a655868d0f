/-
The value of an expression after its text has been written and lexed again.  It is the value it
had, unless the text reads as another expression: a float prints as an integer when it is whole,
and a literal from 2^63 on prints with a minus sign.
-/
import Playground.Frontend.Stringify
import Playground.Assembler.NegativeImmediate
import Playground.Assembler.NumberReaders

namespace Playground

open Precedence (Derives Role Term)
open Lexer

namespace Expr

def evaluateText (text : String) (resolve : String → Option Word) (here : Word) (line : Nat) :
    Except EmuError Word := do
  let tokens ← lex text line
  evaluate tokens resolve here line

section Kinds

variable {resolve : String → Option Word} {here : Word}

/-- The value of tokens as an expression. -/
def kindsValue (resolve : String → Option Word) (here : Word) (kinds : List TokenKind) :
    Option Word :=
  Precedence.parse grammar (meaning resolve here) maxExprDepth kinds

/-- Every token of an expression can stand in one. -/
theorem inExpression_of_derives {n : Nat} {t : Term TokenKind} {kinds : List TokenKind}
    (h : Derives grammar n t kinds) : ∀ k ∈ kinds, inExpression k = true := by
  have hrole : ∀ {k : TokenKind}, role k ≠ .other → inExpression k = true := by
    intro k hk
    cases k <;> first | rfl | exact absurd rfl hk
  have hlevel : ∀ {k : TokenKind} {n : Nat}, operatorLevel k = some n → inExpression k = true := by
    intro k n hk
    cases k <;> first | rfl | cases hk
  have hcloses : ∀ {k : TokenKind}, closes k = true → inExpression k = true := by
    intro k hk
    cases k <;> first | rfl | cases hk
  induction h with
  | atom hk =>
      rintro k hmem
      obtain rfl := List.mem_singleton.mp hmem
      exact hrole (by rw [show role k = .atom from hk]; decide)
  | unary hk _ ih =>
      intro k hmem
      rcases List.mem_cons.mp hmem with rfl | hmem
      · exact hrole (by rw [show role k = .unary from hk]; decide)
      · exact ih k hmem
  | group hk _ hk' ih =>
      intro k hmem
      rcases List.mem_cons.mp hmem with rfl | hmem
      · exact hrole (by rw [show role k = .opens from hk]; decide)
      · rcases List.mem_append.mp hmem with hmem | hmem
        · exact ih k hmem
        · rw [List.mem_singleton.mp hmem]
          exact hcloses hk'
  | operand _ ih => exact ih
  | binary _ hk _ ihl ihr =>
      intro k hmem
      rcases List.mem_append.mp hmem with hmem | hmem
      · exact ihl k hmem
      · rcases List.mem_cons.mp hmem with rfl | hmem
        · exact hlevel hk
        · exact ihr k hmem

theorem kindsValue_other {kinds : List TokenKind} (h : ∃ k ∈ kinds, inExpression k = false) :
    kindsValue resolve here kinds = none := by
  obtain ⟨k, hk, hfalse⟩ := h
  cases hvalue : kindsValue resolve here kinds with
  | none => rfl
  | some v =>
      obtain ⟨t, ht, -⟩ := Precedence.parse_eq_some_iff.mp hvalue
      rw [inExpression_of_derives ht k hk] at hfalse
      cases hfalse

theorem readKinds_other {kinds kinds' : List TokenKind} (h : ∃ k ∈ kinds, inExpression k = false)
    (hread : readKinds kinds = some kinds') : ∃ k ∈ kinds', inExpression k = false := by
  induction kinds generalizing kinds' with
  | nil =>
      obtain ⟨k, hk, -⟩ := h
      cases hk
  | cons kind rest ih =>
      obtain ⟨first, hfirst, hmore⟩ := Option.bind_eq_some_iff.mp hread
      obtain ⟨more, hrest, rfl⟩ := Option.map_eq_some_iff.mp hmore
      obtain ⟨k, hk, hfalse⟩ := h
      rcases List.mem_cons.mp hk with rfl | hk
      · have hkind : readKind k = some [k] := by
          cases k <;> first | (cases hfalse; done) | rfl
        rw [hkind] at hfirst
        cases hfirst
        exact ⟨k, .head _, hfalse⟩
      · obtain ⟨k', hk', hfalse'⟩ := ih ⟨k, hk, hfalse⟩ hrest
        exact ⟨k', List.mem_append_right _ hk', hfalse'⟩

theorem toOption_evaluateText (text : String) (line : Nat) :
    (evaluateText text resolve here line).toOption =
      ((lex text line).toOption.map (·.map Token.kind)).bind (kindsValue resolve here) := by
  unfold evaluateText
  cases lex text line with
  | error e => rfl
  | ok tokens => exact toOption_evaluate tokens

/-- Written and read back, tokens have the value of what they read as. -/
theorem value_of_writes {tokens : List Token} {text : List Char}
    (hspelled : ∀ t ∈ tokens, Spelled t.kind) (h : Writes tokens text) (line : Nat) :
    (evaluateText (String.ofList (trim text)) resolve here line).toOption =
      (readKinds (tokens.map Token.kind)).bind (kindsValue resolve here) := by
  have htrim := h.trim hspelled
  rw [toOption_evaluateText, lex, String.toList_ofList]
  by_cases hin : ∀ t ∈ tokens, inExpression t.kind = true
  · rw [htrim.lex hspelled hin]
  · have hother : ∃ t ∈ tokens, inExpression t.kind = false := by
      simpa only [not_forall, Bool.not_eq_true, exists_prop] using hin
    have hkinds : (readKinds (tokens.map Token.kind)).bind (kindsValue resolve here) = none := by
      cases hread : readKinds (tokens.map Token.kind) with
      | none => rfl
      | some kinds =>
          obtain ⟨t, ht, hfalse⟩ := hother
          exact kindsValue_other (readKinds_other ⟨t.kind, List.mem_map_of_mem ht, hfalse⟩ hread)
    rw [hkinds]
    cases hlex : lexFrom 0 (trim text) line 1 with
    | error e => rfl
    | ok toks =>
        obtain ⟨t, ht, hfalse⟩ := htrim.lex_other hspelled hother hlex
        exact kindsValue_other ⟨t.kind, List.mem_map_of_mem ht, hfalse⟩

end Kinds

section Numbers

open Assembler

/-- Digits that a number prints as read back as the number. -/
theorem parseInt_toDigits {n : Nat} (hn : n < 2 ^ 64) :
    parseInt (Nat.toDigits 10 n) = some (BitVec.ofNat 64 n) := by
  rcases Nat.eq_zero_or_pos n with rfl | hpos
  · decide
  obtain ⟨c, rest, htext, -, hzero⟩ := toDigits_cases hpos
  have hdigits : ∀ d ∈ Nat.toDigits 10 n, d.isDigit = true := fun d hd =>
    Nat.isDigit_of_mem_toDigits (by decide) (by decide) hd
  have hshape : ∀ d more, Nat.toDigits 10 n ≠ '0' :: d :: more := by
    intro d more heq
    rw [htext] at heq
    exact hzero (List.cons.inj heq).1
  have hplain : '_' ∉ Nat.toDigits 10 n := fun hmem => absurd (hdigits '_' hmem) (by decide)
  rw [parseInt_decimal hshape hplain, ← parseUnsigned_eq,
    parseUnsigned_of_digits Nat.toDigits_ne_nil hdigits, digitsValue_toDigits, if_pos hn]
  rfl

theorem unsignedReading_toDigits {n : Nat} (hn : n < 2 ^ 64) :
    unsignedReading (Nat.toDigits 10 n) = some (.intLit (BitVec.ofNat 64 n)) := by
  have hdigits : ∀ d ∈ Nat.toDigits 10 n, d.isDigit = true := fun d hd =>
    Nat.isDigit_of_mem_toDigits (by decide) (by decide) hd
  have hhead : ¬(Nat.toDigits 10 n).head?.any isIdStart = true := by
    cases htext : Nat.toDigits 10 n with
    | nil => exact absurd htext Nat.toDigits_ne_nil
    | cons c rest =>
        have hc : c.isDigit = true := hdigits c (htext ▸ .head _)
        rw [List.head?_cons, Option.any_some, not_isIdStart_of_isDigit hc]
        exact Bool.false_ne_true
  have hdot : '.' ∉ Nat.toDigits 10 n := fun hmem => absurd (hdigits '.' hmem) (by decide)
  rw [unsignedReading, if_neg hhead, if_neg hdot, parseInt_toDigits hn]
  rfl

theorem printedReading_toDigits {n : Nat} (hn : n < 2 ^ 64) :
    printedReading (Nat.toDigits 10 n) = some [.intLit (BitVec.ofNat 64 n)] := by
  unfold printedReading
  split
  · rename_i rest heq
    exact absurd heq ((printed_toDigits n).head_ne rest)
  · rw [unsignedReading_toDigits hn]
    rfl

/-- A literal from 2^63 on reads back as a minus sign and its magnitude. -/
def writtenInt (v : Word) : List TokenKind :=
  if v.toInt < 0 then [.minus, .intLit (-v)] else [.intLit v]

theorem readKind_intLit (v : Word) : readKind (.intLit v) = some (writtenInt v) := by
  rw [readKind, i64Text_eq, writtenInt]
  split
  · rename_i hneg
    have habs : v.toInt.natAbs < 2 ^ 64 := by
      have hlow := BitVec.le_toInt v
      omega
    have hvalue : BitVec.ofNat 64 v.toInt.natAbs = -v := by
      rw [← BitVec.ofInt_natCast, Int.ofNat_natAbs_of_nonpos (Int.le_of_lt hneg),
        BitVec.ofInt_neg, BitVec.ofInt_toInt]
    rw [printedReading, unsignedReading_toDigits habs, hvalue]
    rfl
  · rename_i hnonneg
    have htoNat : v.toInt.toNat = v.toNat := by
      rw [BitVec.toInt_eq_toNat_cond] at hnonneg ⊢
      split at hnonneg <;> omega
    rw [htoNat, printedReading_toDigits v.isLt, BitVec.ofNat_toNat, BitVec.setWidth_eq]

theorem readKind_charLit (v : BitVec 32) :
    readKind (.charLit v) = some [.intLit (v.setWidth 64)] := by
  have hlt : v.toNat < 2 ^ 64 := Nat.lt_trans v.isLt (by decide)
  rw [readKind, printedReading_toDigits hlt, BitVec.ofNat_toNat]

end Numbers

section Written

variable {resolve : String → Option Word} {here : Word}

def writtenAtom : TokenKind → Term TokenKind
  | .intLit v => if v.toInt < 0 then .unary .minus (.atom (.intLit (-v))) else .atom (.intLit v)
  | .charLit v => .atom (.intLit (v.setWidth 64))
  | kind => .atom kind

/-- An expression as it reads back: a literal from 2^63 on is negated there, one level
deeper. -/
def written : Term TokenKind → Term TokenKind
  | .atom kind => writtenAtom kind
  | .unary k t => .unary k (written t)
  | .group k k' t => .group k k' (written t)
  | .binary k l r => .binary k (written l) (written r)

/-- A literal that prints with a minus sign. -/
def IsNegative (kind : TokenKind) : Prop := ∃ v, kind = .intLit v ∧ v.toInt < 0

def IsFloat (kind : TokenKind) : Prop := ∃ bits, kind = .floatLit bits

/-- Whether an operand can end with a token. -/
def EndsOperand (kind : TokenKind) : Prop := role kind = .atom ∨ closes kind = true

/-- No float, and no literal from 2^63 on where an operator is due. -/
def Clear (kinds : List TokenKind) : Prop :=
  (∀ k ∈ kinds, ¬IsFloat k) ∧ kinds.IsChain fun a b => EndsOperand a → ¬IsNegative b

theorem readKind_of_role {kind : TokenKind} (h : role kind ≠ .atom) (hfloat : ¬IsFloat kind) :
    readKind kind = some [kind] := by
  cases kind with
  | floatLit bits => exact absurd ⟨bits, rfl⟩ hfloat
  | intLit v => exact absurd rfl h
  | charLit v => exact absurd rfl h
  | _ => rfl

/-- An atom reads back as an expression of the same value. -/
theorem readKind_atom {kind : TokenKind} (h : role kind = .atom) :
    ∃ kinds, readKind kind = some kinds ∧ Derives grammar 0 (writtenAtom kind) kinds := by
  cases kind with
  | intLit v =>
      refine ⟨writtenInt v, readKind_intLit v, ?_⟩
      by_cases hv : v.toInt < 0
      · rw [writtenAtom, writtenInt, if_pos hv, if_pos hv]
        exact .unary rfl (.atom rfl)
      · rw [writtenAtom, writtenInt, if_neg hv, if_neg hv]
        exact .atom rfl
  | charLit v => exact ⟨_, readKind_charLit v, .atom rfl⟩
  | ident name => exact ⟨_, rfl, .atom rfl⟩
  | directiveIdent name => exact ⟨_, rfl, .atom rfl⟩
  | dot => exact ⟨_, rfl, .atom rfl⟩
  | _ => cases h

theorem value_written (t : Term TokenKind) :
    (written t).value (meaning resolve here) = t.value (meaning resolve here) := by
  induction t with
  | atom kind =>
      cases kind with
      | intLit v =>
          show (writtenAtom (.intLit v)).value (meaning resolve here) = some v
          by_cases hv : v.toInt < 0
          · rw [writtenAtom, if_pos hv]
            show some (applyUnary .minus (-v)) = some v
            rw [applyUnary, ofInt_neg_toInt, BitVec.neg_neg]
          · rw [writtenAtom, if_neg hv]
            rfl
      | _ => rfl
  | unary k t ih => rw [written, Term.value, Term.value, ih]
  | group k k' t ih => rw [written, Term.value, Term.value, ih]
  | binary k l r ihl ihr => rw [written, Term.value, Term.value, ihl, ihr]

theorem readKinds_append (kinds kinds' : List TokenKind) : readKinds (kinds ++ kinds') =
    (readKinds kinds).bind fun first => (readKinds kinds').map fun more => first ++ more := by
  induction kinds with
  | nil => simp [readKinds]
  | cons kind rest ih =>
      rw [List.cons_append, readKinds, ih, readKinds]
      cases readKind kind with
      | none => rfl
      | some first =>
          cases readKinds rest with
          | none => rfl
          | some more => cases readKinds kinds' <;> simp

theorem readKinds_cons {kind : TokenKind} {rest first more : List TokenKind}
    (hfirst : readKind kind = some first) (hmore : readKinds rest = some more) :
    readKinds (kind :: rest) = some (first ++ more) := by
  rw [readKinds, hfirst, hmore]
  rfl

/-- An operator or a parenthesis is no float. -/
theorem not_isFloat_of_level {k : TokenKind} {n : Nat} (h : operatorLevel k = some n) :
    role k ≠ .atom ∧ ¬IsFloat k ∧ closes k = false := by
  cases k <;> first
    | (cases h; done)
    | (refine ⟨by decide, ?_, rfl⟩; rintro ⟨bits, hbits⟩; cases hbits)

theorem not_isFloat_of_closes {k : TokenKind} (h : closes k = true) :
    role k ≠ .atom ∧ ¬IsFloat k := by
  cases k <;> first
    | (cases h; done)
    | (refine ⟨by decide, ?_⟩; rintro ⟨bits, hbits⟩; cases hbits)

theorem not_isFloat_of_role {k : TokenKind} (h : role k ≠ .other) : ¬IsFloat k := by
  rintro ⟨bits, rfl⟩
  exact h rfl

/-- An expression reads back as an expression. -/
theorem derives_written {n : Nat} {t : Term TokenKind} {kinds : List TokenKind}
    (h : Derives grammar n t kinds) :
    ∃ kinds', readKinds kinds = some kinds' ∧ Derives grammar n (written t) kinds' := by
  have hsame : ∀ {k : TokenKind}, role k ≠ .other → role k ≠ .atom → readKind k = some [k] :=
    fun hother hatom => readKind_of_role hatom (not_isFloat_of_role hother)
  induction h with
  | @atom k hk =>
      obtain ⟨first, hfirst, hderives⟩ := readKind_atom hk
      refine ⟨first ++ [], readKinds_cons hfirst rfl, ?_⟩
      rw [List.append_nil]
      exact hderives
  | @unary k t ks hk _ ih =>
      have hk' : role k = .unary := hk
      obtain ⟨more, hmore, hderives⟩ := ih
      exact ⟨k :: more, readKinds_cons (hsame (by rw [hk']; decide) (by rw [hk']; decide)) hmore,
        .unary hk hderives⟩
  | @group k k' t ks hk _ hk' ih =>
      have hopens : role k = .opens := hk
      obtain ⟨more, hmore, hderives⟩ := ih
      have hlast : readKinds [k'] = some [k'] :=
        readKinds_cons (readKind_of_role (not_isFloat_of_closes hk').1
          (not_isFloat_of_closes hk').2) rfl
      refine ⟨k :: (more ++ [k']), ?_, .group hk hderives hk'⟩
      refine readKinds_cons (hsame (by rw [hopens]; decide) (by rw [hopens]; decide)) ?_
      rw [readKinds_append, hmore, hlast]
      rfl
  | operand _ ih =>
      obtain ⟨more, hmore, hderives⟩ := ih
      exact ⟨more, hmore, .operand hderives⟩
  | @binary n k l r ks ks' _ hk _ ihl ihr =>
      obtain ⟨left, hleft, hl⟩ := ihl
      obtain ⟨right, hright, hr⟩ := ihr
      obtain ⟨hrole, hfloat, -⟩ := not_isFloat_of_level hk
      refine ⟨left ++ k :: right, ?_, .binary hl hk hr⟩
      rw [readKinds_append, hleft, readKinds_cons (readKind_of_role hrole hfloat) hright]
      rfl

end Written

section Converse

variable {kinds : List TokenKind}

/-- Every token reads as at least one. -/
theorem readKind_ne_nil {kind : TokenKind} (h : readKind kind = some kinds) : kinds ≠ [] := by
  have hprinted : ∀ {text kinds}, printedReading text = some kinds → kinds ≠ [] := by
    intro text kinds h
    unfold printedReading at h
    split at h
    · obtain ⟨more, -, rfl⟩ := Option.map_eq_some_iff.mp h
      exact List.cons_ne_nil _ _
    · obtain ⟨kind, -, rfl⟩ := Option.map_eq_some_iff.mp h
      exact List.cons_ne_nil _ _
  cases kind with
  | intLit v => exact hprinted h
  | floatLit bits => exact hprinted h
  | charLit v => exact hprinted h
  | _ => cases h; exact List.cons_ne_nil _ _

/-- What a token that is no float reads as: a minus sign and its magnitude, or one token that is
an operand's end, a role and a level alike. -/
theorem readKind_cases {kind : TokenKind} (hfloat : ¬IsFloat kind)
    (h : readKind kind = some kinds) :
    (∃ v, kind = .intLit v ∧ v.toInt < 0 ∧ kinds = [.minus, .intLit (-v)]) ∨
    ¬IsNegative kind ∧ ∃ k, kinds = [k] ∧ writtenAtom kind = .atom k ∧ role k = role kind ∧
      (role k ≠ .atom → kind = k) := by
  cases kind with
  | intLit v =>
      rw [readKind_intLit] at h
      cases h
      by_cases hv : v.toInt < 0
      · exact .inl ⟨v, rfl, hv, if_pos hv⟩
      · refine .inr ⟨?_, .intLit v, if_neg hv, if_neg hv, rfl, fun hrole => absurd rfl hrole⟩
        rintro ⟨v', heq, hneg⟩
        cases heq
        exact hv hneg
  | floatLit bits => exact absurd ⟨bits, rfl⟩ hfloat
  | charLit v =>
      rw [readKind_charLit] at h
      cases h
      refine .inr ⟨?_, _, rfl, rfl, rfl, fun hrole => absurd rfl hrole⟩
      rintro ⟨v', heq, -⟩
      cases heq
  | _ =>
      cases h
      refine .inr ⟨?_, _, rfl, rfl, rfl, fun _ => rfl⟩
      rintro ⟨v', heq, -⟩
      cases heq

theorem Clear.tail {kind : TokenKind} {rest : List TokenKind} (h : Clear (kind :: rest)) :
    Clear rest :=
  ⟨fun k hk => h.1 k (.tail _ hk), h.2.tail⟩

theorem Clear.left {rest : List TokenKind} (h : Clear (kinds ++ rest)) : Clear kinds :=
  ⟨fun k hk => h.1 k (List.mem_append_left _ hk), h.2.left_of_append⟩

theorem Clear.right {rest : List TokenKind} (h : Clear (kinds ++ rest)) : Clear rest :=
  ⟨fun k hk => h.1 k (List.mem_append_right _ hk), h.2.right_of_append⟩

theorem readKinds_eq_nil (h : readKinds kinds = some []) : kinds = [] := by
  cases kinds with
  | nil => rfl
  | cons kind rest =>
      obtain ⟨first, hfirst, hmore⟩ := Option.bind_eq_some_iff.mp h
      obtain ⟨more, -, heq⟩ := Option.map_eq_some_iff.mp hmore
      exact absurd (List.append_eq_nil_iff.mp heq).1 (readKind_ne_nil hfirst)

/-- A token that is no atom comes from one like it, or is the sign of a literal. -/
theorem readKinds_split {before after : List TokenKind} {k : TokenKind}
    (hfloat : ∀ k ∈ kinds, ¬IsFloat k) (hk : role k ≠ .atom)
    (h : readKinds kinds = some (before ++ k :: after)) :
    (∃ a b, kinds = a ++ k :: b ∧ readKinds a = some before ∧ readKinds b = some after) ∨
    k = .minus ∧ ∃ a v b, kinds = a ++ .intLit v :: b ∧ v.toInt < 0 ∧
      readKinds a = some before := by
  induction kinds generalizing before with
  | nil =>
      cases before <;> cases h
  | cons kind rest ih =>
      obtain ⟨first, hfirst, hmore⟩ := Option.bind_eq_some_iff.mp h
      obtain ⟨more, hrest, heq⟩ := Option.map_eq_some_iff.mp hmore
      -- The token split at lies behind this one's.
      have hlater : ∀ before', before = first ++ before' → more = before' ++ k :: after →
          (∃ a b, kind :: rest = a ++ k :: b ∧ readKinds a = some before ∧
            readKinds b = some after) ∨
          k = .minus ∧ ∃ a v b, kind :: rest = a ++ .intLit v :: b ∧ v.toInt < 0 ∧
            readKinds a = some before := by
        rintro before' rfl rfl
        obtain ⟨a, b, rfl, ha, hb⟩ | ⟨hminus, a, v, b, rfl, hv, ha⟩ :=
          ih (fun k hk => hfloat k (.tail _ hk)) hrest
        · exact .inl ⟨kind :: a, b, rfl, readKinds_cons hfirst ha, hb⟩
        · exact .inr ⟨hminus, kind :: a, v, b, rfl, hv, readKinds_cons hfirst ha⟩
      obtain ⟨v, rfl, hv, rfl⟩ | ⟨-, k', rfl, -, -, hsame⟩ :=
        readKind_cases (hfloat kind (.head _)) hfirst
      · cases before with
        | nil =>
            cases heq
            exact .inr ⟨rfl, [], v, rest, rfl, hv, rfl⟩
        | cons c before =>
            cases before with
            | nil =>
                cases heq
                exact absurd rfl hk
            | cons d before =>
                cases heq
                exact hlater before rfl rfl
      · cases before with
        | nil =>
            cases heq
            obtain rfl := hsame hk
            exact .inl ⟨[], rest, rfl, rfl, hrest⟩
        | cons c before =>
            cases heq
            exact hlater before rfl rfl

/-- An operand's last token reads as an operand's last token only. -/
theorem endsOperand_of_read {kinds' : List TokenKind} (hfloat : ∀ k ∈ kinds, ¬IsFloat k)
    (h : readKinds kinds = some kinds') {e : TokenKind} (he : kinds'.getLast? = some e)
    (hends : EndsOperand e) : ∃ e', kinds.getLast? = some e' ∧ EndsOperand e' := by
  induction kinds generalizing kinds' with
  | nil =>
      cases h
      cases he
  | cons kind rest ih =>
      obtain ⟨first, hfirst, hmore⟩ := Option.bind_eq_some_iff.mp h
      obtain ⟨more, hrest, rfl⟩ := Option.map_eq_some_iff.mp hmore
      cases hlast : more.getLast? with
      | some e' =>
          rw [List.getLast?_append, hlast] at he
          cases he
          obtain ⟨e', he', hends'⟩ := ih (fun k hk => hfloat k (.tail _ hk)) hrest hlast
          exact ⟨e', by rw [List.getLast?_cons, he']; rfl, hends'⟩
      | none =>
          obtain rfl := List.getLast?_eq_none_iff.mp hlast
          obtain rfl := readKinds_eq_nil hrest
          refine ⟨kind, rfl, ?_⟩
          obtain ⟨v, rfl, -, -⟩ | ⟨-, k, rfl, -, hrole, hsame⟩ :=
            readKind_cases (hfloat kind (.head _)) hfirst
          · exact .inl rfl
          · cases he
            rcases hends with hatom | hcloses
            · exact .inl (hrole ▸ hatom)
            · exact .inr (hsame (not_isFloat_of_closes hcloses).1 ▸ hcloses)

theorem derives_getLast {n : Nat} {t : Term TokenKind}
    (h : Derives grammar n t kinds) : ∃ e, kinds.getLast? = some e ∧ EndsOperand e := by
  induction h with
  | atom hk => exact ⟨_, rfl, .inl hk⟩
  | @unary k t ks hk _ ih =>
      obtain ⟨e, he, hends⟩ := ih
      exact ⟨e, by rw [List.getLast?_cons, he]; rfl, hends⟩
  | @group k k' t ks hk _ hk' ih =>
      refine ⟨k', ?_, .inr hk'⟩
      rw [← List.cons_append, List.getLast?_append]
      rfl
  | operand _ ih => exact ih
  | @binary n k l r ks ks' _ hk _ ihl ihr =>
      obtain ⟨e, he, hends⟩ := ihr
      refine ⟨e, ?_, hends⟩
      rw [List.getLast?_append, List.getLast?_cons, he]
      rfl

theorem derives_of_atom {n : Nat} {t : Term TokenKind} {k : TokenKind} {rest : List TokenKind}
    (h : Derives grammar n t kinds) (hn : n = 0) (hkinds : kinds = k :: rest)
    (hk : role k = .atom) : t = .atom k ∧ rest = [] := by
  have hhead : ∀ {k' : TokenKind} {rest' : List TokenKind},
      kinds = k' :: rest' → role k' = .atom := by
    rintro k' rest' rfl
    cases hkinds
    exact hk
  cases h with
  | atom _ =>
      cases hkinds
      exact ⟨rfl, rfl⟩
  | unary hrole _ => exact absurd ((hhead rfl).symm.trans hrole) nofun
  | group hrole _ _ => exact absurd ((hhead rfl).symm.trans hrole) nofun
  | operand _ => cases hn
  | binary _ _ _ => cases hn

/-- A text that reads as an expression was written for one, if nothing in it is ambiguous. -/
theorem derives_of_read {n : Nat} {t' : Term TokenKind} {kinds' : List TokenKind}
    (h : Derives grammar n t' kinds') (hclear : Clear kinds)
    (hread : readKinds kinds = some kinds') : ∃ t, Derives grammar n t kinds ∧ written t = t' := by
  induction h generalizing kinds with
  | @atom k hk =>
      cases kinds with
      | nil => cases hread
      | cons kind rest =>
          obtain ⟨first, hfirst, hmore⟩ := Option.bind_eq_some_iff.mp hread
          obtain ⟨more, hrest, heq⟩ := Option.map_eq_some_iff.mp hmore
          obtain ⟨v, rfl, -, rfl⟩ | ⟨-, k', rfl, hatom, hrole, -⟩ :=
            readKind_cases (hclear.1 kind (.head _)) hfirst
          · cases heq
          · cases heq
            obtain rfl := readKinds_eq_nil hrest
            have hk : role k = .atom := hk
            exact ⟨.atom kind, .atom (hrole.symm.trans hk), hatom⟩
  | @unary k t' ks hk hderives ih =>
      have hunary : role k = .unary := hk
      cases kinds with
      | nil => cases hread
      | cons kind rest =>
          obtain ⟨first, hfirst, hmore⟩ := Option.bind_eq_some_iff.mp hread
          obtain ⟨more, hrest, heq⟩ := Option.map_eq_some_iff.mp hmore
          obtain ⟨v, rfl, hv, rfl⟩ | ⟨-, k', rfl, -, -, hsame⟩ :=
            readKind_cases (hclear.1 kind (.head _)) hfirst
          · -- The sign is that of a literal, which is the whole operand.
            obtain ⟨rfl, hks⟩ := List.cons.inj heq
            obtain ⟨rfl, rfl⟩ := derives_of_atom hderives rfl hks.symm rfl
            obtain rfl := readKinds_eq_nil hrest
            exact ⟨.atom (.intLit v), .atom rfl, if_pos hv⟩
          · cases heq
            obtain rfl := hsame (by rw [hunary]; decide)
            obtain ⟨t, ht, rfl⟩ := ih hclear.tail hrest
            exact ⟨.unary kind t, .unary hk ht, rfl⟩
  | @group k k' t' ks hk _ hk' ih =>
      have hopens : role k = .opens := hk
      cases kinds with
      | nil => cases hread
      | cons kind rest =>
          obtain ⟨first, hfirst, hmore⟩ := Option.bind_eq_some_iff.mp hread
          obtain ⟨more, hrest, heq⟩ := Option.map_eq_some_iff.mp hmore
          obtain ⟨v, rfl, hv, rfl⟩ | ⟨-, k₁, rfl, -, -, hsame⟩ :=
            readKind_cases (hclear.1 kind (.head _)) hfirst
          · obtain ⟨rfl, -⟩ := List.cons.inj heq
            cases hopens
          · cases heq
            obtain rfl := hsame (by rw [hopens]; decide)
            obtain ⟨a, b, rfl, ha, hb⟩ | ⟨rfl, -⟩ :=
              readKinds_split hclear.tail.1 (not_isFloat_of_closes hk').1 hrest
            · obtain rfl := readKinds_eq_nil hb
              obtain ⟨t, ht, rfl⟩ := ih hclear.tail.left ha
              exact ⟨.group kind k' t, .group hk ht hk', rfl⟩
            · cases hk'
  | operand _ ih =>
      obtain ⟨t, ht, rfl⟩ := ih hclear hread
      exact ⟨t, .operand ht, rfl⟩
  | @binary n k l r ks ks' hl hk _ ihl ihr =>
      obtain ⟨hrole, -, -⟩ := not_isFloat_of_level hk
      obtain ⟨a, b, rfl, ha, hb⟩ | ⟨-, a, v, b, rfl, hv, ha⟩ :=
        readKinds_split hclear.1 hrole hread
      · obtain ⟨left, hleft, rfl⟩ := ihl hclear.left ha
        obtain ⟨right, hright, rfl⟩ := ihr hclear.right.tail hb
        exact ⟨.binary k left right, .binary hleft hk hright, rfl⟩
      · -- A literal's sign behind an operand is what a clear text does not have.
        obtain ⟨e, he, hends⟩ := derives_getLast hl
        obtain ⟨e', he', hends'⟩ := endsOperand_of_read hclear.left.1 ha he hends
        exact absurd ⟨v, rfl, hv⟩ ((List.isChain_append.mp hclear.2).2.2 e' he' _ rfl hends')

theorem role_of_isNegative {k : TokenKind} (h : IsNegative k) : role k = .atom := by
  obtain ⟨v, rfl, -⟩ := h
  rfl

/-- The tokens of an expression are not ambiguous. -/
theorem clear_of_derives {n : Nat} {t : Term TokenKind}
    (h : Derives grammar n t kinds) : Clear kinds := by
  have hnot : ∀ {k : TokenKind}, role k ≠ .atom → ¬IsNegative k := fun hrole hneg =>
    hrole (role_of_isNegative hneg)
  -- Neither a prefix operator nor an opening parenthesis ends an operand.
  have hprefix : ∀ {k : TokenKind} {rest : List TokenKind}, role k = .unary ∨ role k = .opens →
      Clear rest → Clear (k :: rest) := by
    intro k rest hk hrest
    have hends : ¬EndsOperand k := by
      rintro (hatom | hcloses)
      · rw [hatom] at hk
        rcases hk with h | h <;> cases h
      · cases k <;> first | (cases hcloses; done) | (rcases hk with h | h <;> cases h)
    refine ⟨fun k' hk' => ?_, List.isChain_cons.mpr ⟨fun _ _ h => absurd h hends, hrest.2⟩⟩
    rcases List.mem_cons.mp hk' with rfl | hk'
    · exact not_isFloat_of_role (by rcases hk with h | h <;> rw [h] <;> decide)
    · exact hrest.1 k' hk'
  induction h with
  | @atom k hk =>
      have hatom : role k = .atom := hk
      refine ⟨fun k' hk' => ?_, .singleton _⟩
      rw [List.mem_singleton.mp hk']
      exact not_isFloat_of_role (by rw [hatom]; decide)
  | unary hk _ ih => exact hprefix (.inl hk) ih
  | @group k k' t ks hk _ hk' ih =>
      obtain ⟨hrole, hfloat⟩ := not_isFloat_of_closes hk'
      refine hprefix (.inr hk) ⟨fun k₁ hk₁ => ?_, ?_⟩
      · rcases List.mem_append.mp hk₁ with hk₁ | hk₁
        · exact ih.1 k₁ hk₁
        · rw [List.mem_singleton.mp hk₁]
          exact hfloat
      · refine List.isChain_append.mpr ⟨ih.2, .singleton _, ?_⟩
        rintro e - k₁ ⟨⟩ -
        exact hnot hrole
  | operand _ ih => exact ih
  | @binary n k l r ks ks' _ hk _ ihl ihr =>
      obtain ⟨hrole, hfloat, hcloses⟩ := not_isFloat_of_level hk
      have hends : ¬EndsOperand k := by
        rintro (hatom | hclosing)
        · exact hrole hatom
        · rw [hcloses] at hclosing
          cases hclosing
      refine ⟨fun k₁ hk₁ => ?_, List.isChain_append.mpr ⟨ihl.2, ?_, ?_⟩⟩
      · rcases List.mem_append.mp hk₁ with hk₁ | hk₁
        · exact ihl.1 k₁ hk₁
        · rcases List.mem_cons.mp hk₁ with rfl | hk₁
          · exact hfloat
          · exact ihr.1 k₁ hk₁
      · exact List.isChain_cons.mpr ⟨fun _ _ h => absurd h hends, ihr.2⟩
      · rintro e - k₁ ⟨⟩ -
        exact hnot hrole

end Converse

section RoundTrip

variable {resolve : String → Option Word} {here : Word}

/-- Tokens are an expression that evaluates. -/
def Evaluates (resolve : String → Option Word) (here : Word) (kinds : List TokenKind) : Prop :=
  ∃ t v, Derives grammar grammar.levels t kinds ∧ t.nesting ≤ maxExprDepth ∧
    t.value (meaning resolve here) = some v

/-- When the text of tokens keeps their meaning.  If nothing is ambiguous, their expression nests
no deeper than the limit with a level more for each literal from 2^63 on.  Otherwise what they read
as is no expression that evaluates. -/
def Keeps (resolve : String → Option Word) (here : Word) (kinds : List TokenKind) : Prop :=
  (∀ t v, Derives grammar grammar.levels t kinds → t.nesting ≤ maxExprDepth →
    t.value (meaning resolve here) = some v → (written t).nesting ≤ maxExprDepth) ∧
  (¬Clear kinds → ∀ kinds', readKinds kinds = some kinds' → ¬Evaluates resolve here kinds')

theorem nesting_le_written (t : Term TokenKind) : t.nesting ≤ (written t).nesting := by
  induction t with
  | atom kind => exact Nat.zero_le _
  | unary k t ih => exact Nat.succ_le_succ ih
  | group k k' t ih => exact Nat.succ_le_succ ih
  | binary k l r ihl ihr =>
      exact Nat.max_le.mpr ⟨Nat.le_trans ihl (Nat.le_max_left _ _),
        Nat.le_trans ihr (Nat.le_max_right _ _)⟩

theorem read_value_iff (kinds : List TokenKind) :
    (readKinds kinds).bind (kindsValue resolve here) = kindsValue resolve here kinds ↔
      Keeps resolve here kinds := by
  have hiff : ∀ {kinds : List TokenKind} {v : Word}, kindsValue resolve here kinds = some v ↔ _ :=
    Precedence.parse_eq_some_iff
  constructor
  · intro heq
    refine ⟨fun t v ht hnesting hvalue => ?_, fun hclear kinds' hread => ?_⟩
    · rw [hiff.mpr ⟨t, ht, hnesting, hvalue⟩] at heq
      obtain ⟨kinds', hread, hkinds'⟩ := Option.bind_eq_some_iff.mp heq
      obtain ⟨t', ht', hnesting', -⟩ := hiff.mp hkinds'
      obtain ⟨kinds'', hread', hwritten⟩ := derives_written ht
      rw [hread] at hread'
      cases hread'
      rw [Precedence.derives_unique hwritten ht']
      exact hnesting'
    · rintro ⟨t', v, ht', hnesting', hvalue'⟩
      rw [hread, Option.bind_some, hiff.mpr ⟨t', ht', hnesting', hvalue'⟩] at heq
      obtain ⟨t, ht, -⟩ := hiff.mp heq.symm
      exact hclear (clear_of_derives ht)
  · rintro ⟨hdepth, hambiguous⟩
    apply Option.ext
    intro v
    constructor
    · intro h
      obtain ⟨kinds', hread, hkinds'⟩ := Option.bind_eq_some_iff.mp h
      obtain ⟨t', ht', hnesting', hvalue'⟩ := hiff.mp hkinds'
      by_cases hclear : Clear kinds
      · obtain ⟨t, ht, rfl⟩ := derives_of_read ht' hclear hread
        rw [value_written] at hvalue'
        exact hiff.mpr ⟨t, ht, Nat.le_trans (nesting_le_written t) hnesting', hvalue'⟩
      · exact absurd ⟨t', v, ht', hnesting', hvalue'⟩ (hambiguous hclear kinds' hread)
    · intro h
      obtain ⟨t, ht, hnesting, hvalue⟩ := hiff.mp h
      obtain ⟨kinds', hread, hwritten⟩ := derives_written ht
      rw [hread, Option.bind_some]
      exact hiff.mpr ⟨written t, hwritten, hdepth t v ht hnesting hvalue,
        (value_written t).trans hvalue⟩

/-- A text that is written for an expression lexes to what the expression reads as. -/
theorem lex_writes {tokens : List Token} (hspelled : ∀ t ∈ tokens, Spelled t.kind)
    {text : List Char} (h : Writes tokens text) {t : Term TokenKind}
    (ht : Derives grammar grammar.levels t (tokens.map Token.kind)) (line : Nat) :
    (lex (String.ofList (trim text)) line).toOption.map (·.map Token.kind) =
      readKinds (tokens.map Token.kind) := by
  rw [lex, String.toList_ofList]
  refine (h.trim hspelled).lex hspelled ?_ line 1
  exact fun tok htok => inExpression_of_derives ht _ (List.mem_map_of_mem htok)

theorem value_eq_of_text_eq {tokens tokens' : List Token} (h : Slice tokens) (h' : Slice tokens')
    {text text' : List Char} (hw : Writes tokens text) (hw' : Writes tokens' text')
    (heq : String.ofList (trim text) = String.ofList (trim text')) {line : Nat} {v v' : Word}
    (hv : evaluate tokens resolve here line = .ok v)
    (hv' : evaluate tokens' resolve here line = .ok v') : v = v' := by
  have hterm : ∀ {tokens : List Token} {v : Word}, evaluate tokens resolve here line = .ok v →
      ∃ t, Derives grammar grammar.levels t (tokens.map Token.kind) ∧ t.nesting ≤ maxExprDepth ∧
        t.value (meaning resolve here) = some v := by
    intro tokens v hv
    have hvalue : (evaluate tokens resolve here line).toOption =
        kindsValue resolve here (tokens.map Token.kind) := toOption_evaluate tokens
    rw [hv] at hvalue
    exact Precedence.parse_eq_some_iff.mp hvalue.symm
  obtain ⟨t, ht, -, hvalue⟩ := hterm hv
  obtain ⟨t', ht', -, hvalue'⟩ := hterm hv'
  obtain ⟨kinds, hread, hwritten⟩ := derives_written ht
  obtain ⟨kinds', hread', hwritten'⟩ := derives_written ht'
  have hkinds : some kinds = some kinds' := by
    rw [← hread, ← hread', ← lex_writes h.spelled hw ht line, ← lex_writes h'.spelled hw' ht' line,
      heq]
  cases hkinds
  rw [← value_written, Precedence.derives_unique hwritten hwritten', value_written,
    hvalue'] at hvalue
  exact (Option.some.inj hvalue).symm

/-- Written back and read again, tokens give the same value or an error both times. -/
def RoundTrips (stringify : List Token → String) (tokens : List Token)
    (resolve : String → Option Word) (here : Word) (line : Nat) : Prop :=
  (evaluateText (stringify tokens) resolve here line).toOption =
    (evaluate tokens resolve here line).toOption

theorem roundTrips_iff {stringify : List Token → String} {text : List Char} {tokens : List Token}
    (h : Slice tokens) (hw : Writes tokens text)
    (htext : stringify tokens = String.ofList (trim text)) (line : Nat) :
    RoundTrips stringify tokens resolve here line ↔ Keeps resolve here (tokens.map Token.kind) := by
  have hvalue : (evaluate tokens resolve here line).toOption =
      kindsValue resolve here (tokens.map Token.kind) := toOption_evaluate tokens
  rw [RoundTrips, hvalue, ← read_value_iff, htext, value_of_writes h.spelled hw]

/-- Both writers keep the meaning of tokens just when nothing in their text is ambiguous or nests
too deep, and never write expressions of different values alike. -/
theorem stringify_roundTrips {tokens : List Token} (h : Slice tokens)
    (resolve : String → Option Word) (here : Word) (line : Nat) :
    (RoundTrips stringifyTokensSpace tokens resolve here line ↔
      Keeps resolve here (tokens.map Token.kind)) ∧
    (RoundTrips stringifyTokens tokens resolve here line ↔
      Keeps resolve here (tokens.map Token.kind)) ∧
    ∀ tokens', Slice tokens' → ∀ v v', v ≠ v' → evaluate tokens resolve here line = .ok v →
      evaluate tokens' resolve here line = .ok v' →
      stringifyTokensSpace tokens ≠ stringifyTokensSpace tokens' ∧
        stringifyTokens tokens ≠ stringifyTokens tokens' := by
  refine ⟨roundTrips_iff h (writes_space tokens) rfl line,
    roundTrips_iff h (writes_stringifyFrom tokens) rfl line,
    fun tokens' h' v v' hne hv hv' => ⟨fun heq => hne ?_, fun heq => hne ?_⟩⟩
  · exact value_eq_of_text_eq h h' (writes_space tokens) (writes_space tokens') heq hv hv'
  · exact value_eq_of_text_eq h h' (writes_stringifyFrom tokens) (writes_stringifyFrom tokens')
      heq hv hv'

theorem slice_of_lex {source : String} {line : Nat} {tokens : List Token}
    (h : lex source line = .ok tokens) : Slice tokens :=
  ⟨source, line, tokens, h, List.infix_refl tokens⟩

theorem keeps_mixed (resolve : String → Option Word) (here : Word) :
    Keeps resolve here (mixedTokens.map Token.kind) := by
  refine ⟨fun t v ht _ _ => ?_, fun hclear => absurd (clear_of_derives derives_mixed) hclear⟩
  obtain rfl := Precedence.derives_unique derives_mixed ht
  decide

/-- `-(N + 2) * 3 | 1 << 4` reads back from both writers as the minus five it was, and neither
writes it as `N + 2`. -/
theorem stringify_roundTrips_mixed :
    (evaluateText (stringifyTokensSpace mixedTokens)
        (fun name => if name = "N" then some 5 else none) 0 1).toOption = some (-5) ∧
      (evaluateText (stringifyTokens mixedTokens)
        (fun name => if name = "N" then some 5 else none) 0 1).toOption = some (-5) ∧
      stringifyTokensSpace mixedTokens ≠
        stringifyTokensSpace [⟨.ident "N", 1, 1⟩, ⟨.plus, 1, 3⟩, ⟨.intLit 2, 1, 5⟩] ∧
      stringifyTokens mixedTokens ≠
        stringifyTokens [⟨.ident "N", 1, 1⟩, ⟨.plus, 1, 3⟩, ⟨.intLit 2, 1, 5⟩] := by
  have hmixed : Slice mixedTokens :=
    @slice_of_lex "-(N + 2) * 3 | 1 << 4" 1 _ (by decide +kernel)
  have hsum : Slice [⟨.ident "N", 1, 1⟩, ⟨.plus, 1, 3⟩, ⟨.intLit 2, 1, 5⟩] :=
    @slice_of_lex "N + 2" 1 _ (by decide)
  have hvalue : (evaluate mixedTokens (fun name => if name = "N" then some 5 else none) 0 1) =
      .ok (-5) := by
    decide +kernel
  obtain ⟨hspaced, hjoined, hdistinct⟩ := stringify_roundTrips hmixed
    (fun name => if name = "N" then some 5 else none) 0 1
  have hspaced := hspaced.mpr (keeps_mixed _ 0)
  have hjoined := hjoined.mpr (keeps_mixed _ 0)
  rw [RoundTrips, hvalue] at hspaced hjoined
  exact ⟨hspaced, hjoined, hdistinct _ hsum (-5) 7 (by decide) hvalue (by decide)⟩

/-- `2.0` is refused, and its text is the integer `2`. -/
theorem not_roundTrips_float : ¬∀ tokens, Slice tokens → ∀ resolve here line,
    RoundTrips stringifyTokensSpace tokens resolve here line := by
  intro h
  have hslice : Slice [⟨.floatLit 0x4000000000000000, 1, 1⟩] :=
    @slice_of_lex "2.0" 1 _ (by decide)
  have hround := h _ hslice (fun _ => none) 0 1
  have htext : (evaluateText (stringifyTokensSpace [⟨.floatLit 0x4000000000000000, 1, 1⟩])
      (fun _ => none) 0 1).toOption = some 2 := by decide
  rw [RoundTrips, htext] at hround
  cases hround

end RoundTrip

end Expr

end Playground
