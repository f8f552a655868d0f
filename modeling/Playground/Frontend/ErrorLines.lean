/-
Errors in an expression that stands on one line name that line: those of the lexer, and
those of the evaluator on tokens of the line.
-/
import Playground.Frontend.Expr

namespace Playground

def EmuError.line : EmuError → Option Nat
  | .assemblyError line _ => some line
  | .preprocError line _ => some line
  | .parseError line _ => some line
  | .linkError line _ => some line
  | _ => none

def Names {α : Type} (line : Nat) (r : Except EmuError α) : Prop :=
  ∀ e, r = .error e → e.line = some line

theorem Names.ok {α : Type} (line : Nat) (a : α) : Names line (.ok a : Except EmuError α) := by
  intro e h
  cases h

theorem Names.error {α : Type} (line : Nat) (message : String) :
    Names line (.error (.parseError line message) : Except EmuError α) := by
  intro e h
  cases h
  rfl

theorem Names.bind {α β : Type} {line : Nat} {r : Except EmuError α}
    {f : α → Except EmuError β} (hr : Names line r) (hf : ∀ a, r = .ok a → Names line (f a)) :
    Names line (r >>= f) := by
  cases r with
  | error e =>
      intro e' h
      cases h
      exact hr e rfl
  | ok a => exact hf a rfl

namespace Lexer

theorem names_parseCharLiteral (s : List Char) (line : Nat) :
    Names line (parseCharLiteral s line) := by
  unfold parseCharLiteral
  split
  · exact Names.error line _
  · split
    · split
      · exact Names.ok line _
      · exact Names.error line _
    · split
      · exact Names.ok line _
      · exact Names.error line _
    · exact Names.error line _

theorem names_decodeStringEscape (s : List Char) (line : Nat) :
    Names line (decodeStringEscape s line) := by
  unfold decodeStringEscape
  split
  · exact Names.error line _
  · simp only
    repeat' split
    all_goals first | exact Names.ok line _ | exact Names.error line _

theorem names_parseStringBody (line skip : Nat) (s : List Char) :
    Names line (parseStringBody line skip s) := by
  induction s generalizing skip with
  | nil => exact Names.error line _
  | cons c rest ih =>
      cases skip with
      | succ skip => exact (ih skip).bind fun a _ => Names.ok line _
      | zero =>
          unfold parseStringBody
          split
          · exact Names.ok line _
          split
          · exact Names.error line _
          split
          · exact (names_decodeStringEscape rest line).bind fun a _ =>
              (ih a.2).bind fun b _ => Names.ok line _
          · exact (ih 0).bind fun a _ => Names.ok line _

theorem names_parseNumber (s : List Char) (line : Nat) : Names line (parseNumber s line) := by
  unfold parseNumber
  simp only
  repeat' split
  all_goals first | exact Names.ok line _ | exact Names.error line _

theorem names_nextToken (c : Char) (rest : List Char) (line col : Nat) :
    Names line (nextToken c rest line col) := by
  unfold nextToken
  split
  · exact Names.ok line _
  simp only
  split
  · split
    · exact Names.ok line _
    · exact Names.error line _
  split
  · split
    · exact Names.ok line _
    · exact Names.error line _
  split
  · split
    · exact Names.ok line _
    · exact Names.ok line _
  split
  · exact names_parseNumber _ line
  split
  · exact (names_parseCharLiteral _ line).bind fun a _ => Names.ok line _
  split
  · exact (names_parseStringBody line 0 rest).bind fun a _ => Names.ok line _
  split
  · exact Names.ok line _
  split
  · exact Names.ok line _
  split
  · exact Names.error line _
  · exact Names.error line _

/-- Without a newline, every token and every error is on the first line. -/
theorem lexFrom_line {s : List Char} (h : '\n' ∉ s) (skip line col : Nat) :
    Names line (lexFrom skip s line col) ∧
    ∀ tokens, lexFrom skip s line col = .ok tokens → ∀ t ∈ tokens, t.line = line := by
  induction s generalizing skip col with
  | nil =>
      constructor
      · exact Names.ok line _
      · intro tokens htokens
        cases htokens
        simp
  | cons c rest ih =>
      have hrest : '\n' ∉ rest := fun hmem => h (List.mem_cons_of_mem c hmem)
      have hc : c ≠ '\n' := fun hc => h (hc ▸ List.mem_cons_self)
      cases skip with
      | succ skip => exact ih hrest skip _
      | zero =>
          unfold lexFrom
          rw [if_neg hc]
          split
          · exact ih hrest 0 _
          · constructor
            · exact (names_nextToken c rest line col).bind fun a _ =>
                (ih hrest _ _).1.bind fun b _ => Names.ok line _
            · intro tokens htokens
              cases hnext : nextToken c rest line col with
              | error e => simp [hnext, bind, Except.bind] at htokens
              | ok a =>
                  cases hmore : lexFrom (a.2 - 1) rest line (col + c.utf8Size) with
                  | error e => simp [hnext, hmore, bind, Except.bind] at htokens
                  | ok more =>
                      simp only [hnext, hmore, bind, Except.bind, pure, Except.pure,
                        Except.ok.injEq] at htokens
                      rw [← htokens]
                      intro t ht
                      rcases List.mem_cons.mp ht with rfl | ht
                      · rfl
                      · exact (ih hrest _ _).2 more hmore t ht

end Lexer

theorem lex_line {source : String} (h : '\n' ∉ source.toList) (line : Nat) :
    Names line (lex source line) ∧
    ∀ tokens, lex source line = .ok tokens → ∀ t ∈ tokens, t.line = line :=
  Lexer.lexFrom_line h 0 line 1

namespace Expr

/-- A parse on tokens of `line`: its errors name the line, and the tokens it leaves are
on it. -/
structure OnLine (line : Nat) (r : Except EmuError (Word × List Token)) : Prop where
  names : Names line r
  rest : ∀ v rest, r = .ok (v, rest) → ∀ t ∈ rest, t.line = line

variable {line : Nat} {op : TokenKind → Option BinaryOp}

theorem OnLine.ok (v : Word) {rest : List Token}
    (h : ∀ t ∈ rest, t.line = line) : OnLine line (.ok (v, rest)) := by
  constructor
  · exact Names.ok line _
  · intro v' rest' heq
    cases heq
    exact h

theorem OnLine.error {tokLine : Nat} (h : tokLine = line) (message : String) :
    OnLine line (.error (.parseError tokLine message)) := by
  constructor
  · rw [h]
    exact Names.error line message
  · intro v rest heq
    simp at heq

theorem OnLine.bind {α : Type} {line : Nat} {r : Except EmuError α}
    {f : α → Except EmuError (Word × List Token)} (hr : Names line r)
    (hf : ∀ a, r = .ok a → OnLine line (f a)) : OnLine line (r >>= f) := by
  cases r with
  | error e =>
      constructor
      · intro e' h
        cases h
        exact hr e rfl
      · intro v rest h
        cases h
  | ok a => exact hf a rfl

def Stays (line : Nat) (p : Parse) : Prop :=
  ∀ toks, (∀ t ∈ toks, t.line = line) → OnLine line (p toks)

/-- The operators of a level blame the line. -/
def OpStays (line : Nat) (op : TokenKind → Option BinaryOp) : Prop :=
  ∀ kind f, op kind = some f → ∀ a b, Names line (f a b)

theorem Stays.chain {operand : Parse}
    (hoperand : Stays line operand) (hop : OpStays line op) (n : Nat) (left : Word) :
    Stays line (chain operand op n left) := by
  induction n generalizing left with
  | zero =>
      intro toks htoks
      simpa [Expr.chain] using OnLine.ok left htoks
  | succ n ih =>
      intro toks htoks
      cases toks with
      | nil => exact OnLine.ok left htoks
      | cons tok rest =>
          have hrest : ∀ t ∈ rest, t.line = line := fun t ht =>
            htoks t (List.mem_cons_of_mem tok ht)
          unfold Expr.chain
          cases hkind : op tok.kind with
          | none => exact OnLine.ok left htoks
          | some f =>
              have hright := hoperand rest hrest
              refine OnLine.bind hright.names fun right heq => ?_
              refine OnLine.bind (hop tok.kind f hkind left right.1) fun value _ => ?_
              exact ih value right.2 (hright.rest right.1 right.2 heq)

theorem Stays.level {operand : Parse} (hoperand : Stays line operand) (hop : OpStays line op) :
    Stays line (level operand op) := by
  intro toks htoks
  have hleft := hoperand toks htoks
  refine OnLine.bind hleft.names fun left heq => ?_
  exact hoperand.chain hop _ _ left.2 (hleft.rest left.1 left.2 heq)

theorem opStays_of_ok
    (h : ∀ kind f, op kind = some f → ∀ a b, ∃ v, f a b = .ok v) : OpStays line op := by
  intro kind f hkind a b e he
  obtain ⟨v, hv⟩ := h kind f hkind a b
  rw [hv] at he
  cases he

theorem opStays_orOp (line : Nat) : OpStays line orOp := by
  apply opStays_of_ok
  intro kind f hkind a b
  cases kind <;> cases hkind
  exact ⟨_, rfl⟩

theorem opStays_xorOp (line : Nat) : OpStays line xorOp := by
  apply opStays_of_ok
  intro kind f hkind a b
  cases kind <;> cases hkind
  exact ⟨_, rfl⟩

theorem opStays_andOp (line : Nat) : OpStays line andOp := by
  apply opStays_of_ok
  intro kind f hkind a b
  cases kind <;> cases hkind
  exact ⟨_, rfl⟩

theorem opStays_addOp (line : Nat) : OpStays line addOp := by
  apply opStays_of_ok
  intro kind f hkind a b
  cases kind <;> cases hkind <;> exact ⟨_, rfl⟩

theorem opStays_shiftOp (line : Nat) : OpStays line (shiftOp line) := by
  intro kind f hkind a b
  cases kind <;> cases hkind <;> (simp only; split) <;>
    first | exact Names.ok line _ | exact Names.error line _

theorem opStays_mulOp (line : Nat) : OpStays line (mulOp line) := by
  intro kind f hkind a b
  cases kind <;> cases hkind
  · exact Names.ok line _
  all_goals
    simp only
    split
    · exact Names.error line _
    · exact Names.ok line _

theorem Stays.parseOr {unary : Parse} (h : Stays line unary) :
    Stays line (parseOr line unary) :=
  (((((h.level (opStays_mulOp line)).level (opStays_addOp line)).level
    (opStays_shiftOp line)).level (opStays_andOp line)).level (opStays_xorOp line)).level
    (opStays_orOp line)

theorem onLine_parsePrimary (resolve : String → Option Word) (here : Word)
    {tok : Token} {rest : List Token} (htok : tok.line = line)
    (hrest : ∀ t ∈ rest, t.line = line) :
    OnLine line (parsePrimary resolve here tok rest) := by
  have hsymbol : ∀ name, OnLine line (parseSymbol resolve name tok.line rest) := by
    intro name
    unfold parseSymbol
    cases resolve name with
    | none => exact OnLine.error htok _
    | some value => exact OnLine.ok value hrest
  unfold parsePrimary
  cases hkind : tok.kind <;> simp only
  case intLit v => exact OnLine.ok v hrest
  case charLit v => exact OnLine.ok (v.setWidth 64) hrest
  case dot => exact OnLine.ok here hrest
  case ident name => exact hsymbol name
  case directiveIdent name => exact hsymbol name
  all_goals exact OnLine.error htok _

theorem onLine_parseClose {tokLine : Nat} (htok : tokLine = line)
    {inner : Word × List Token} (h : ∀ t ∈ inner.2, t.line = line) :
    OnLine line (parseClose tokLine inner) := by
  unfold parseClose
  split
  · exact OnLine.ok _ fun t ht => h t (List.mem_cons_of_mem _ ht)
  · exact OnLine.error htok _

theorem stays_parseUnary (resolve : String → Option Word) (here : Word) (line depth : Nat) :
    Stays line (parseUnary resolve here line depth) := by
  induction depth with
  | zero =>
      intro toks htoks
      unfold parseUnary
      cases toks with
      | nil => exact OnLine.error rfl _
      | cons tok rest =>
          have htok := htoks tok List.mem_cons_self
          have hrest : ∀ t ∈ rest, t.line = line := fun t ht =>
            htoks t (List.mem_cons_of_mem tok ht)
          cases hkind : tok.kind <;> simp only [hkind]
          all_goals first
            | exact OnLine.error htok _
            | exact onLine_parsePrimary resolve here htok hrest
  | succ depth ih =>
      intro toks htoks
      unfold parseUnary
      cases toks with
      | nil => exact OnLine.error rfl _
      | cons tok rest =>
          have htok := htoks tok List.mem_cons_self
          have hrest : ∀ t ∈ rest, t.line = line := fun t ht =>
            htoks t (List.mem_cons_of_mem tok ht)
          have hinner := ih rest hrest
          cases hkind : tok.kind <;> simp only [hkind]
          case minus =>
            exact OnLine.bind hinner.names fun a ha => OnLine.ok _ (hinner.rest a.1 a.2 ha)
          case tilde =>
            exact OnLine.bind hinner.names fun a ha => OnLine.ok _ (hinner.rest a.1 a.2 ha)
          case plus => exact hinner
          case lParen =>
            have hparen := ih.parseOr rest hrest
            exact OnLine.bind hparen.names fun a ha =>
              onLine_parseClose htok (hparen.rest a.1 a.2 ha)
          all_goals exact onLine_parsePrimary resolve here htok hrest

end Expr

theorem names_evaluate {tokens : List Token} {line : Nat} (h : ∀ t ∈ tokens, t.line = line)
    (resolve : String → Option Word) (here : Word) :
    Names line (evaluate tokens resolve here line) := by
  have hvalue := (Expr.stays_parseUnary resolve here line Expr.maxExprDepth).parseOr tokens h
  unfold evaluate
  refine hvalue.names.bind fun a ha => ?_
  obtain ⟨value, rest⟩ := a
  cases rest with
  | nil => exact Names.ok line _
  | cons tok rest =>
      have htok := hvalue.rest value (tok :: rest) ha tok List.mem_cons_self
      simp only [htok]
      exact Names.error line _

end Playground
