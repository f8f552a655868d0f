/-
The grammar of constant expressions, lowest precedence first: `|`, `^`, `&`, the shifts, the
sums, the products, and prefix operators over literals, symbols, `.` and parentheses.  The
evaluator finds the value of an expression of the grammar, and of nothing else.
-/
import Playground.Frontend.Expr
import Playground.Library.Precedence
import Mathlib.Tactic.Linarith

namespace Playground

open Precedence (Derives Role Term)

namespace Expr

/-- What a token starts. -/
def role : TokenKind → Role
  | .minus | .tilde | .plus => .unary
  | .lParen => .opens
  | .intLit _ | .charLit _ | .dot | .ident _ | .directiveIdent _ => .atom
  | _ => .other

def closes : TokenKind → Bool
  | .rParen => true
  | _ => false

/-- How tight an operator binds: the products tightest. -/
def operatorLevel : TokenKind → Option Nat
  | .star | .slash | .percent => some 0
  | .plus | .minus => some 1
  | .lShift | .rShift => some 2
  | .amp => some 3
  | .caret => some 4
  | .pipe => some 5
  | _ => none

theorem operatorLevel_closes (k : TokenKind) (h : closes k = true) : operatorLevel k = none := by
  cases k <;> first | rfl | cases h

/-- A literal or a symbol is no operator and closes nothing. -/
theorem not_operator_of_atom (k : TokenKind) (h : role k = .atom) :
    closes k = false ∧ operatorLevel k = none := by
  cases k <;> first | exact ⟨rfl, rfl⟩ | cases h

def grammar : Precedence.Grammar TokenKind where
  levels := 6
  role := role
  closes := closes
  level := operatorLevel
  level_closes := operatorLevel_closes

/-- The operands an operator accepts on its right. -/
def Accepts : TokenKind → Word → Prop
  | .slash, b | .percent, b => b ≠ 0
  | .lShift, b | .rShift, b => 0 ≤ b.toInt ∧ b.toInt < 64
  | _, _ => True

instance : ∀ k b, Decidable (Accepts k b)
  | .slash, b | .percent, b => inferInstanceAs (Decidable (b ≠ 0))
  | .lShift, b | .rShift, b => inferInstanceAs (Decidable (0 ≤ b.toInt ∧ b.toInt < 64))
  | .ident _, _ | .directiveIdent _, _ | .intLit _, _ | .floatLit _, _ | .charLit _, _
  | .stringLit _, _ | .comma, _ | .plus, _ | .minus, _ | .star, _ | .amp, _ | .pipe, _
  | .caret, _ | .tilde, _ | .bang, _ | .lParen, _ | .rParen, _ | .lBracket, _ | .rBracket, _
  | .lBrace, _ | .rBrace, _ | .dot, _ | .colon, _ | .equals, _ | .hash, _ =>
      inferInstanceAs (Decidable True)

/-- An operator on the integers, before the result wraps to 64 bits.  Division truncates, and
a right shift rounds down; the bitwise operators work on the words. -/
def applyOp : TokenKind → Word → Word → Word
  | .star, a, b => BitVec.ofInt 64 (a.toInt * b.toInt)
  | .slash, a, b => BitVec.ofInt 64 (a.toInt.tdiv b.toInt)
  | .percent, a, b => BitVec.ofInt 64 (a.toInt.tmod b.toInt)
  | .plus, a, b => BitVec.ofInt 64 (a.toInt + b.toInt)
  | .minus, a, b => BitVec.ofInt 64 (a.toInt - b.toInt)
  | .lShift, a, b => BitVec.ofInt 64 (a.toInt * 2 ^ b.toInt.toNat)
  | .rShift, a, b => BitVec.ofInt 64 (a.toInt / 2 ^ b.toInt.toNat)
  | .amp, a, b => a &&& b
  | .caret, a, b => a ^^^ b
  | .pipe, a, b => a ||| b
  | _, a, _ => a

def applyUnary : TokenKind → Word → Word
  | .minus, a => BitVec.ofInt 64 (-a.toInt)
  | .tilde, a => ~~~a
  | _, a => a

/-- The name a token looks up. -/
def symbolName : TokenKind → Option String
  | .ident name | .directiveIdent name => some name
  | _ => none

section
variable (resolve : String → Option Word) (here : Word)

def atomValue : TokenKind → Option Word
  | .intLit v => some v
  | .charLit v => some (v.setWidth 64)
  | .dot => some here
  | .ident name | .directiveIdent name => resolve name
  | _ => none

/-- The values of an expression's parts. -/
def meaning : Precedence.Meaning TokenKind Word where
  atom := atomValue resolve here
  unary k a := some (applyUnary k a)
  group _ _ a := some a
  binary k a b := if Accepts k b then some (applyOp k a b) else none

/-- The tree of an expression that the evaluator accepts. -/
structure Evaluable (tokens : List Token) (t : Term TokenKind) : Prop where
  derives : Derives grammar grammar.levels t (tokens.map Token.kind)
  nesting : t.nesting ≤ maxExprDepth
  symbols : ∀ tok ∈ tokens, ∀ name, symbolName tok.kind = some name → resolve name ≠ none
  operands : ∀ k l r, .binary k l r ∈ t.parts → ∀ b, r.value (meaning resolve here) = some b →
    Accepts k b

end

section Operators

variable (a b : Word)

theorem ofInt_add_toInt : BitVec.ofInt 64 (a.toInt + b.toInt) = a + b := by
  rw [BitVec.ofInt_add, BitVec.ofInt_toInt, BitVec.ofInt_toInt]

theorem ofInt_mul_toInt : BitVec.ofInt 64 (a.toInt * b.toInt) = a * b := by
  rw [BitVec.ofInt_mul, BitVec.ofInt_toInt, BitVec.ofInt_toInt]

theorem ofInt_neg_toInt : BitVec.ofInt 64 (-a.toInt) = -a := by
  rw [BitVec.ofInt_neg, BitVec.ofInt_toInt]

theorem ofInt_sub_toInt : BitVec.ofInt 64 (a.toInt - b.toInt) = a - b := by
  rw [Int.sub_eq_add_neg, BitVec.ofInt_add, ofInt_neg_toInt, BitVec.ofInt_toInt,
    BitVec.sub_eq_add_neg]

/-- The smallest word over `-1` wraps to itself. -/
theorem ofInt_tdiv_toInt : BitVec.ofInt 64 (a.toInt.tdiv b.toInt) = a.sdiv b := by
  apply BitVec.eq_of_toInt_eq
  rw [BitVec.toInt_ofInt, BitVec.toInt_sdiv]

theorem ofInt_tmod_toInt : BitVec.ofInt 64 (a.toInt.tmod b.toInt) = a.srem b := by
  rw [← BitVec.toInt_srem, BitVec.ofInt_toInt]

theorem ofInt_mul_two_pow (n : Nat) : BitVec.ofInt 64 (a.toInt * 2 ^ n) = a <<< n := by
  have hpow : BitVec.ofInt 64 (2 ^ n) = BitVec.twoPow 64 n := by
    apply BitVec.eq_of_toNat_eq
    rw [BitVec.toNat_ofInt, BitVec.toNat_twoPow]
    norm_cast
  rw [BitVec.ofInt_mul, BitVec.ofInt_toInt, BitVec.shiftLeft_eq_mul_twoPow, hpow]

theorem ofInt_div_two_pow (n : Nat) : BitVec.ofInt 64 (a.toInt / 2 ^ n) = a.sshiftRight n := by
  have hshift : (a.sshiftRight n).toInt = a.toInt / 2 ^ n := by
    rw [BitVec.toInt_sshiftRight, Int.shiftRight_eq_div_pow]
    norm_cast
  rw [← hshift, BitVec.ofInt_toInt]

variable {b}

/-- A shift count below 64 is the same signed and unsigned. -/
theorem toNat_lt_iff : b.toNat < 64 ↔ 0 ≤ b.toInt ∧ b.toInt < 64 := by
  rw [BitVec.toInt_eq_toNat_cond]
  split <;> omega

theorem toNat_toInt_of_lt (h : b.toNat < 64) : b.toInt.toNat = b.toNat := by
  rw [BitVec.toInt_eq_toNat_cond, if_pos (by omega), Int.toNat_natCast]

end Operators

section Erasure

/-- A parse without the lines, the columns and the texts of errors. -/
def erased (result : Except EmuError (Word × List Token)) : Option (Word × List TokenKind) :=
  result.toOption.map fun p => (p.1, p.2.map Token.kind)

theorem erased_bind {result : Except EmuError (Word × List Token)}
    {next : Word × List Token → Except EmuError (Word × List Token)}
    {next' : Word × List TokenKind → Option (Word × List TokenKind)}
    (h : ∀ p, erased (next p) = next' (p.1, p.2.map Token.kind)) :
    erased (result >>= next) = (erased result).bind next' := by
  cases result with
  | error e => rfl
  | ok p => exact h p

/-- A parser of tokens does what a parser of their kinds does. -/
def Erases (parse : Parse) (parse' : List TokenKind → Option (Word × List TokenKind)) : Prop :=
  ∀ toks, erased (parse toks) = parse' (toks.map Token.kind)

variable {resolve : String → Option Word} {here : Word} {line : Nat}

/-- The operators of a level are those of the grammar. -/
def Implements (resolve : String → Option Word) (here : Word) (op : TokenKind → Option BinaryOp)
    (n : Nat) : Prop :=
  ∀ k, (op k).map (fun f a b => (f a b).toOption) =
    Precedence.opAt grammar (meaning resolve here) n k

theorem erases_chain {operand : Parse} {op : TokenKind → Option BinaryOp} {n : Nat}
    {operand' : List TokenKind → Option (Word × List TokenKind)}
    (hoperand : Erases operand operand') (hop : Implements resolve here op n) (fuel : Nat)
    (left : Word) : Erases (chain operand op fuel left)
      (Precedence.chain operand' (Precedence.opAt grammar (meaning resolve here) n) fuel left) := by
  induction fuel generalizing left with
  | zero => intro toks; rfl
  | succ fuel ih =>
      intro toks
      cases toks with
      | nil => rfl
      | cons tok toks =>
          rw [List.map_cons, chain, Precedence.chain, ← hop]
          cases op tok.kind with
          | none => rfl
          | some f =>
              rw [← hoperand toks]
              apply erased_bind
              rintro ⟨right, rest⟩
              show erased (f left right >>= fun left => chain operand op fuel left rest) = _
              cases hf : f left right with
              | error e => simp only [hf]; rfl
              | ok left => simp only [hf]; exact ih left rest

theorem erases_level {operand : Parse} {op : TokenKind → Option BinaryOp} {n : Nat}
    {unary' : List TokenKind → Option (Word × List TokenKind)}
    (hoperand : Erases operand (Precedence.parseLevel grammar (meaning resolve here) unary' n))
    (hop : Implements resolve here op n) :
    Erases (level operand op)
      (Precedence.parseLevel grammar (meaning resolve here) unary' (n + 1)) := by
  intro toks
  rw [level, Precedence.parseLevel, ← hoperand toks]
  apply erased_bind
  rintro ⟨left, rest⟩
  rw [List.length_map]
  exact erases_chain hoperand hop _ left rest

/-- A checked operator accepts what the grammar's operator does. -/
theorem toOption_checked {p q : Prop} [Decidable p] [Decidable q] {x y : Word} {e : EmuError}
    (hiff : p ↔ q) (hvalue : p → x = y) :
    (if p then .ok x else .error e : Except EmuError Word).toOption =
      if q then some y else none := by
  by_cases hp : p
  · rw [if_pos hp, if_pos (hiff.mp hp), hvalue hp]
    rfl
  · rw [if_neg hp, if_neg (mt hiff.mpr hp)]
    rfl

theorem implements_mulOp : Implements resolve here (mulOp line) 0 := by
  intro k
  cases k with
  | star =>
      refine congrArg some (funext fun a => funext fun b => ?_)
      exact congrArg some (ofInt_mul_toInt a b).symm
  | slash =>
      refine congrArg some (funext fun a => funext fun b => ?_)
      beta_reduce
      rw [← ite_not]
      exact toOption_checked Iff.rfl fun _ => (ofInt_tdiv_toInt a b).symm
  | percent =>
      refine congrArg some (funext fun a => funext fun b => ?_)
      beta_reduce
      rw [← ite_not]
      exact toOption_checked Iff.rfl fun _ => (ofInt_tmod_toInt a b).symm
  | _ => rfl

theorem implements_addOp : Implements resolve here addOp 1 := by
  intro k
  cases k with
  | plus =>
      refine congrArg some (funext fun a => funext fun b => ?_)
      exact congrArg some (ofInt_add_toInt a b).symm
  | minus =>
      refine congrArg some (funext fun a => funext fun b => ?_)
      exact congrArg some (ofInt_sub_toInt a b).symm
  | _ => rfl

theorem implements_shiftOp : Implements resolve here (shiftOp line) 2 := by
  intro k
  cases k with
  | lShift =>
      refine congrArg some (funext fun a => funext fun b => ?_)
      apply toOption_checked toNat_lt_iff
      intro hb
      rw [applyOp, toNat_toInt_of_lt hb, ofInt_mul_two_pow]
  | rShift =>
      refine congrArg some (funext fun a => funext fun b => ?_)
      apply toOption_checked toNat_lt_iff
      intro hb
      rw [applyOp, toNat_toInt_of_lt hb, ofInt_div_two_pow]
  | _ => rfl

theorem implements_andOp : Implements resolve here andOp 3 := by
  intro k
  cases k <;> rfl

theorem implements_xorOp : Implements resolve here xorOp 4 := by
  intro k
  cases k <;> rfl

theorem implements_orOp : Implements resolve here orOp 5 := by
  intro k
  cases k <;> rfl

/-- One level over another, the products over the operands. -/
theorem erases_parseOr {unary : Parse} {unary' : List TokenKind → Option (Word × List TokenKind)}
    (h : Erases unary unary') : Erases (parseOr line unary)
      (Precedence.parseLevel grammar (meaning resolve here) unary' grammar.levels) := by
  apply erases_level _ implements_orOp
  apply erases_level _ implements_xorOp
  apply erases_level _ implements_andOp
  apply erases_level _ implements_shiftOp
  apply erases_level _ implements_addOp
  exact erases_level h implements_mulOp

/-- A literal, a symbol or `.` has its value; nothing else can stand there. -/
theorem erased_parsePrimary (tok : Token) (rest : List Token) :
    erased (parsePrimary resolve here tok rest) =
      (atomValue resolve here tok.kind).map fun v => (v, rest.map Token.kind) := by
  have hsymbol : ∀ name, erased (parseSymbol resolve name tok.line rest) =
      (resolve name).map fun v => (v, rest.map Token.kind) := by
    intro name
    unfold parseSymbol
    cases resolve name <;> rfl
  obtain ⟨kind, l, c⟩ := tok
  cases kind with
  | ident name => exact hsymbol name
  | directiveIdent name => exact hsymbol name
  | _ => rfl

theorem erased_parseClose (tokLine : Nat) (k : TokenKind) (p : Word × List Token) :
    erased (parseClose tokLine p) =
      Precedence.parseClose grammar (meaning resolve here) k (p.1, p.2.map Token.kind) := by
  obtain ⟨v, toks⟩ := p
  cases toks with
  | nil => rfl
  | cons tok toks =>
      obtain ⟨kind, l, c⟩ := tok
      cases kind <;> rfl

/-- With no levels left, only a literal, a symbol or `.` is an operand. -/
theorem erases_parseUnary_zero : Erases (parseUnary resolve here line 0)
    (Precedence.parseOperand grammar (meaning resolve here) 0) := by
  intro toks
  cases toks with
  | nil => rfl
  | cons tok toks =>
      obtain ⟨kind, l, c⟩ := tok
      cases kind with
      | minus => rfl
      | tilde => rfl
      | plus => rfl
      | lParen => rfl
      | _ => exact erased_parsePrimary _ _

theorem erases_parseUnary (depth : Nat) : Erases (parseUnary resolve here line depth)
    (Precedence.parseOperand grammar (meaning resolve here) depth) := by
  induction depth with
  | zero => exact erases_parseUnary_zero
  | succ depth ih =>
      intro toks
      cases toks with
      | nil => rfl
      | cons tok toks =>
          obtain ⟨kind, l, c⟩ := tok
          cases kind with
          | minus =>
              show erased (parseUnary resolve here line depth toks >>=
                fun p => .ok (-p.1, p.2)) = Option.bind _ _
              rw [← ih toks]
              apply erased_bind
              intro p
              exact congrArg (fun v => some (v, p.2.map Token.kind)) (ofInt_neg_toInt p.1).symm
          | tilde =>
              show erased (parseUnary resolve here line depth toks >>=
                fun p => .ok (~~~p.1, p.2)) = Option.bind _ _
              rw [← ih toks]
              apply erased_bind
              intro p
              rfl
          | plus =>
              show erased (parseUnary resolve here line depth toks) = Option.bind _ some
              rw [← ih toks, Option.bind_fun_some]
          | lParen =>
              show erased (parseOr line (parseUnary resolve here line depth) toks >>=
                parseClose l) = Option.bind _ _
              rw [← erases_parseOr ih toks]
              apply erased_bind
              exact erased_parseClose l .lParen
          | _ => exact erased_parsePrimary _ _

theorem toOption_evaluate (tokens : List Token) :
    (evaluate tokens resolve here line).toOption =
      Precedence.parse grammar (meaning resolve here) maxExprDepth (tokens.map Token.kind) := by
  have hparse : Erases (parseOr line (parseUnary resolve here line maxExprDepth))
      (Precedence.parseLevel grammar (meaning resolve here) _ grammar.levels) :=
    erases_parseOr (erases_parseUnary maxExprDepth)
  rw [evaluate, Precedence.parse, ← hparse tokens]
  cases parseOr line (parseUnary resolve here line maxExprDepth) tokens with
  | error e => rfl
  | ok p =>
      obtain ⟨v, rest⟩ := p
      cases rest <;> rfl

end Erasure

section Value

variable {resolve : String → Option Word} {here : Word} {tokens : List Token}
  {t : Term TokenKind}

variable {v : Word} {line : Nat}

/-- A literal and `.` have a value, and a symbol that is defined. -/
theorem exists_atomValue {k : TokenKind} (hrole : role k = .atom)
    (hsymbol : ∀ name, symbolName k = some name → resolve name ≠ none) :
    ∃ v, atomValue resolve here k = some v := by
  cases k with
  | ident name => exact Option.ne_none_iff_exists'.mp (hsymbol name rfl)
  | directiveIdent name => exact Option.ne_none_iff_exists'.mp (hsymbol name rfl)
  | intLit v => exact ⟨v, rfl⟩
  | charLit v => exact ⟨_, rfl⟩
  | dot => exact ⟨here, rfl⟩
  | _ => cases hrole

theorem symbol_of_atomValue {k : TokenKind} (h : atomValue resolve here k = some v)
    {name : String} (hname : symbolName k = some name) : resolve name ≠ none := by
  cases k with
  | ident name' =>
      cases hname
      rw [show resolve name = some v from h]
      exact Option.some_ne_none v
  | directiveIdent name' =>
      cases hname
      rw [show resolve name = some v from h]
      exact Option.some_ne_none v
  | _ => cases hname

theorem role_of_symbolName {k : TokenKind} {name : String} (h : symbolName k = some name) :
    role k = .atom := by
  cases k <;> first | rfl | cases h

theorem Evaluable.exists_value (h : Evaluable resolve here tokens t) :
    ∃ v, t.value (meaning resolve here) = some v := by
  apply Precedence.exists_value
  · exact fun k a => ⟨_, rfl⟩
  · exact fun k k' a => ⟨a, rfl⟩
  · intro k hk
    obtain ⟨hmem, hrole⟩ :=
      (Precedence.atom_mem_parts h.derives not_operator_of_atom).mp hk
    obtain ⟨tok, htok, rfl⟩ := List.mem_map.mp hmem
    exact exists_atomValue hrole (h.symbols tok htok)
  · intro k l r hk a b _ hb
    exact ⟨_, if_pos (h.operands k l r hk b hb)⟩

theorem evaluable_of_value (hderives : Derives grammar grammar.levels t (tokens.map Token.kind))
    (hnesting : t.nesting ≤ maxExprDepth)
    (hvalue : t.value (meaning resolve here) = some v) : Evaluable resolve here tokens t where
  derives := hderives
  nesting := hnesting
  symbols := by
    intro tok htok name hname
    have hatom : .atom tok.kind ∈ t.parts :=
      (Precedence.atom_mem_parts hderives not_operator_of_atom).mpr
        ⟨List.mem_map_of_mem htok, role_of_symbolName hname⟩
    obtain ⟨a, ha⟩ := Precedence.value_of_mem_parts hatom hvalue
    exact symbol_of_atomValue ha hname
  operands := by
    intro k l r hmem b hb
    obtain ⟨v', hv'⟩ := Precedence.value_of_mem_parts hmem hvalue
    obtain ⟨a, -, hbinary⟩ := Option.bind_eq_some_iff.mp hv'
    rw [hb] at hbinary
    have hsome : (if Accepts k b then some (applyOp k a b) else none) = some v' := hbinary
    by_contra hnot
    rw [if_neg hnot] at hsome
    cases hsome

/-- What evaluates is an expression with its value. -/
theorem exists_term_of_evaluate (h : evaluate tokens resolve here line = .ok v) :
    ∃ t, Derives grammar grammar.levels t (tokens.map Token.kind) ∧ t.nesting ≤ maxExprDepth ∧
      t.value (meaning resolve here) = some v := by
  have hparse : (evaluate tokens resolve here line).toOption =
      Precedence.parse grammar (meaning resolve here) maxExprDepth (tokens.map Token.kind) :=
    toOption_evaluate tokens
  rw [h] at hparse
  exact Precedence.parse_eq_some_iff.mp hparse.symm

/-- Every name in it is defined. -/
theorem resolve_of_evaluate (h : evaluate tokens resolve here line = .ok v) :
    ∀ tok ∈ tokens, ∀ name, symbolName tok.kind = some name → resolve name ≠ none := by
  obtain ⟨t, hderives, hnesting, hvalue⟩ := exists_term_of_evaluate h
  exact (evaluable_of_value hderives hnesting hvalue).symbols

/-- The value turns on the atoms in it. -/
theorem evaluate_atoms_congr {resolve' : String → Option Word} {here' : Word}
    (h : evaluate tokens resolve here line = .ok v)
    (hatoms : ∀ tok ∈ tokens, atomValue resolve' here' tok.kind = atomValue resolve here tok.kind) :
    evaluate tokens resolve' here' line = .ok v := by
  obtain ⟨t, hderives, hnesting, hvalue⟩ := exists_term_of_evaluate h
  have hparts : ∀ k, .atom k ∈ t.parts →
      atomValue resolve' here' k = atomValue resolve here k := by
    intro k hk
    obtain ⟨tok, htok, rfl⟩ := List.mem_map.mp
      ((Precedence.atom_mem_parts hderives not_operator_of_atom).mp hk).1
    exact hatoms tok htok
  have hvalue' : t.value (meaning resolve' here') = some v :=
    (Precedence.value_atom_congr hparts).trans hvalue
  have hparse : (evaluate tokens resolve' here' line).toOption = some v := by
    rw [toOption_evaluate]
    exact Precedence.parse_eq_some_iff.mpr ⟨t, hderives, hnesting, hvalue'⟩
  cases heval : evaluate tokens resolve' here' line with
  | error e => rw [heval] at hparse; cases hparse
  | ok w => rw [heval] at hparse; cases hparse; rfl

/-- The value turns on the names in it. -/
theorem evaluate_congr {resolve' : String → Option Word}
    (h : evaluate tokens resolve here line = .ok v)
    (hnames : ∀ tok ∈ tokens, ∀ name, symbolName tok.kind = some name →
      resolve' name = resolve name) : evaluate tokens resolve' here line = .ok v := by
  refine evaluate_atoms_congr h fun tok htok => ?_
  cases hkind : tok.kind with
  | ident name => exact hnames tok htok name (by rw [hkind]; rfl)
  | directiveIdent name => exact hnames tok htok name (by rw [hkind]; rfl)
  | _ => rfl

/-- Without a `.` it is the same everywhere. -/
theorem evaluate_anywhere (h : evaluate tokens resolve here line = .ok v)
    (hdot : ∀ tok ∈ tokens, tok.kind ≠ .dot) (here' : Word) :
    evaluate tokens resolve here' line = .ok v := by
  refine evaluate_atoms_congr h fun tok htok => ?_
  cases hkind : tok.kind with
  | dot => exact absurd hkind (hdot tok htok)
  | _ => rfl

end Value

open Precedence in
/-- Tokens have one tree at most.  They evaluate to its value when it nests no deeper than the
limit, every symbol is defined, no divisor is zero and every shift count is from 0 to 63; in
every other case there is an error. -/
theorem evaluate_grammar (tokens : List Token) (resolve : String → Option Word) (here : Word)
    (line : Nat) :
    (∀ t t', Derives grammar grammar.levels t (tokens.map Token.kind) →
      Derives grammar grammar.levels t' (tokens.map Token.kind) → t = t') ∧
    (∀ t, Evaluable resolve here tokens t → ∃ v, t.value (meaning resolve here) = some v ∧
      evaluate tokens resolve here line = .ok v) ∧
    ((¬∃ t, Evaluable resolve here tokens t) →
      ∃ e, evaluate tokens resolve here line = .error e) := by
  have hparse : (evaluate tokens resolve here line).toOption =
      parse grammar (meaning resolve here) maxExprDepth (tokens.map Token.kind) :=
    toOption_evaluate tokens
  refine ⟨fun t t' h h' => derives_unique h h', ?_, ?_⟩
  · intro t ht
    obtain ⟨v, hv⟩ := ht.exists_value
    rw [parse_eq_some_iff.mpr ⟨t, ht.derives, ht.nesting, hv⟩] at hparse
    refine ⟨v, hv, ?_⟩
    cases heval : evaluate tokens resolve here line with
    | error e => rw [heval] at hparse; cases hparse
    | ok w => rw [heval] at hparse; cases hparse; rfl
  · intro hnone
    cases heval : evaluate tokens resolve here line with
    | error e => exact ⟨e, rfl⟩
    | ok v =>
        rw [heval] at hparse
        obtain ⟨t, hderives, hnesting, hvalue⟩ := parse_eq_some_iff.mp hparse.symm
        exact absurd ⟨t, evaluable_of_value hderives hnesting hvalue⟩ hnone

/-- `-(N + 2) * 3 | 1 << 4`. -/
def mixedTokens : List Token :=
  [⟨.minus, 1, 1⟩, ⟨.lParen, 1, 2⟩, ⟨.ident "N", 1, 3⟩, ⟨.plus, 1, 5⟩, ⟨.intLit 2, 1, 7⟩,
    ⟨.rParen, 1, 8⟩, ⟨.star, 1, 10⟩, ⟨.intLit 3, 1, 12⟩, ⟨.pipe, 1, 14⟩, ⟨.intLit 1, 1, 16⟩,
    ⟨.lShift, 1, 18⟩, ⟨.intLit 4, 1, 21⟩]

/-- The prefix binds tighter than the product, the product than the shift, and `|` least. -/
def mixedTerm : Term TokenKind :=
  .binary .pipe
    (.binary .star
      (.unary .minus
        (.group .lParen .rParen (.binary .plus (.atom (.ident "N")) (.atom (.intLit 2)))))
      (.atom (.intLit 3)))
    (.binary .lShift (.atom (.intLit 1)) (.atom (.intLit 4)))

theorem derives_mixed :
    Derives grammar grammar.levels mixedTerm (mixedTokens.map Token.kind) := by
  have hint : ∀ v, Derives grammar 0 (.atom (.intLit v)) [.intLit v] := fun v => .atom rfl
  have hname : Derives grammar 0 (.atom (.ident "N")) [.ident "N"] := .atom rfl
  have hsum := Derives.binary (g := grammar) (k := .plus) (.operand (.operand hname)) rfl
    (.operand (hint 2))
  have hminus := Derives.unary (g := grammar) (k := .minus) rfl
    (.group (k := .lParen) rfl (.operand (.operand (.operand (.operand hsum))))
      (show grammar.closes .rParen = true from rfl))
  have hproduct := Derives.binary (g := grammar) (k := .star) (.operand hminus) rfl (hint 3)
  have hshift := Derives.binary (g := grammar) (k := .lShift)
    (.operand (.operand (.operand (hint 1)))) rfl (.operand (.operand (hint 4)))
  exact Derives.binary (g := grammar) (k := .pipe)
    (.operand (.operand (.operand (.operand (.operand hproduct))))) rfl
    (.operand (.operand hshift))

/-- With `N` five, it is minus five; with no value for `N`, an error. -/
theorem evaluate_grammar_mixed :
    evaluate mixedTokens (fun name => if name = "N" then some 5 else none) 0 1 = .ok (-5) ∧
      ∃ e, evaluate mixedTokens (fun _ => none) 0 1 = .error e := by
  have hvalue : mixedTerm.value (meaning (fun name => if name = "N" then some 5 else none) 0) =
      some (-5) := by
    decide
  obtain ⟨-, hgood, -⟩ := evaluate_grammar mixedTokens
    (fun name => if name = "N" then some 5 else none) 0 1
  obtain ⟨v, hv, heval⟩ := hgood mixedTerm
    (evaluable_of_value derives_mixed (by decide) hvalue)
  obtain rfl := Option.some.inj (hvalue.symm.trans hv)
  refine ⟨heval, (evaluate_grammar mixedTokens (fun _ => none) 0 1).2.2 ?_⟩
  rintro ⟨t, ht⟩
  exact ht.symbols ⟨.ident "N", 1, 3⟩ (by simp [mixedTokens]) "N" rfl rfl

/-- `1 << 64` is an expression with no symbol and no division, and does not evaluate. -/
theorem not_evaluate_shift : ∃ t : Term TokenKind,
    Derives grammar grammar.levels t [.intLit 1, .lShift, .intLit 64] ∧ t.nesting ≤ maxExprDepth ∧
      ¬∃ v, evaluate [⟨.intLit 1, 1, 1⟩, ⟨.lShift, 1, 3⟩, ⟨.intLit 64, 1, 6⟩] (fun _ => none) 0 1 =
        .ok v := by
  refine ⟨.binary .lShift (.atom (.intLit 1)) (.atom (.intLit 64)), ?_, by decide, ?_⟩
  · have hatom : ∀ v, Derives grammar 0 (.atom (.intLit v)) [.intLit v] := fun v => .atom rfl
    exact .operand (.operand (.operand
      (.binary (.operand (.operand (.operand (hatom 1)))) rfl (.operand (.operand (hatom 64))))))
  · rintro ⟨v, hv⟩
    have herror : (evaluate [⟨.intLit 1, 1, 1⟩, ⟨.lShift, 1, 3⟩, ⟨.intLit 64, 1, 6⟩]
        (fun _ => none) 0 1).toOption = none := by decide
    rw [hv] at herror
    cases herror

end Expr

end Playground
