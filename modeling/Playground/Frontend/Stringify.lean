/-
The text that an expression's tokens are handed to the linker as, and what it lexes to.  There
are two writers: the parser's, with a blank after every token, and the linker's, which leaves out
the blanks that a register list has none of.
-/
import Playground.Frontend.Relex
import Playground.Frontend.ExprGrammar

namespace Playground

open Lexer

/-- The text of one token in an equate's body. -/
def spaceText : TokenKind → List Char
  | .stringLit _ => ['"', '.', '.', '.', '"']
  | kind => tokenText kind

/-- Tokens back to source text, a blank after each. -/
def stringifyTokensSpace (tokens : List Token) : String :=
  String.ofList (trim (tokens.flatMap fun t => spaceText t.kind ++ [' ']))

/-- The tokens that can stand in an expression, and the floats it refuses. -/
def inExpression : TokenKind → Bool
  | .stringLit _ | .comma | .bang | .lBracket | .rBracket | .lBrace | .rBrace | .colon | .equals
  | .hash => false
  | _ => true

/-- A run of tokens that the lexer made of one source. -/
def Slice (tokens : List Token) : Prop :=
  ∃ source line all, lex source line = .ok all ∧ tokens <:+: all

theorem spelled_lexFrom {s : List Char} {skip line col : Nat} {tokens : List Token}
    (h : lexFrom skip s line col = .ok tokens) : ∀ t ∈ tokens, Spelled t.kind := by
  induction s generalizing skip line col tokens with
  | nil =>
      cases h
      nofun
  | cons c rest ih =>
      cases skip with
      | succ skip => exact ih h
      | zero =>
          rw [lexFrom] at h
          split at h
          · exact ih h
          split at h
          · exact ih h
          obtain ⟨⟨kind, used⟩, hnext, h⟩ := bind_eq_ok h
          obtain ⟨more, hmore, h⟩ := bind_eq_ok h
          cases h
          intro t ht
          rcases List.mem_cons.mp ht with rfl | ht
          · exact spelled_of_nextToken hnext
          · exact ih hmore t ht

theorem Slice.spelled {tokens : List Token} (h : Slice tokens) : ∀ t ∈ tokens, Spelled t.kind := by
  obtain ⟨source, line, all, hlex, hslice⟩ := h
  exact fun t ht => spelled_lexFrom hlex t (hslice.subset ht)

section Text

variable {kind : TokenKind}

theorem not_isSpace_of_all {s : List Char} (h : (s.all fun d => !isSpace d) = true) :
    ∀ d ∈ s, isSpace d = false := by
  intro d hd
  exact Bool.not_eq_true' _ ▸ List.all_eq_true.mp h d hd

theorem not_isSpace_printed {text : List Char}
    (h : ∃ digits, Printed digits ∧ (text = digits ∨ text = '-' :: digits)) :
    text ≠ [] ∧ ∀ d ∈ text, isSpace d = false := by
  have hdigit : ∀ c : Char, c.isDigit = true → isSpace c = false := fun c => not_isSpace_of_isDigit
  have hunsigned : ∀ digits, Printed digits → digits ≠ [] ∧ ∀ d ∈ digits, isSpace d = false := by
    intro digits h
    cases h with
    | digits hne hdigits => exact ⟨hne, fun d hd => hdigit d (hdigits d hd)⟩
    | decimal hne hdigits hfne hfraction =>
        refine ⟨by simp, ?_⟩
        intro d hd
        rcases List.mem_append.mp hd with hd | hd
        · exact hdigit d (hdigits d hd)
        · rcases List.mem_cons.mp hd with rfl | hd
          · rfl
          · exact hdigit d (hfraction d hd)
    | inf => exact ⟨List.cons_ne_nil _ _, not_isSpace_of_all rfl⟩
    | nan => exact ⟨List.cons_ne_nil _ _, not_isSpace_of_all rfl⟩
  obtain ⟨digits, hdigits, heq⟩ := h
  rcases heq with rfl | rfl
  · exact hunsigned text hdigits
  · refine ⟨List.cons_ne_nil _ _, ?_⟩
    intro d hd
    rcases List.mem_cons.mp hd with rfl | hd
    · rfl
    · exact (hunsigned digits hdigits).2 d hd

theorem not_isSpace_tokenText (h : Spelled kind) (hin : inExpression kind = true) :
    tokenText kind ≠ [] ∧ ∀ d ∈ tokenText kind, isSpace d = false := by
  have hname : ∀ name, kind = .ident name ∨ kind = .directiveIdent name →
      name.toList ≠ [] ∧ ∀ d ∈ name.toList, isSpace d = false := by
    intro name hkind
    obtain ⟨c, rest, heq, hspace, -⟩ := h name hkind
    rw [heq]
    exact ⟨List.cons_ne_nil _ _, hspace⟩
  cases kind with
  | ident name => exact hname name (.inl rfl)
  | directiveIdent name => exact hname name (.inr rfl)
  | intLit v => exact not_isSpace_printed (printed_i64Text v)
  | floatLit bits => exact not_isSpace_printed (printed_display bits)
  | charLit v => exact not_isSpace_printed ⟨_, printed_toDigits _, .inl rfl⟩
  | _ => first | exact ⟨List.cons_ne_nil _ _, not_isSpace_of_all rfl⟩ | cases hin

end Text

section Writes

variable {tokens : List Token} {text : List Char}

/-- The text written for tokens: after a token in an expression a blank, unless what follows
delimits it.  From any other token on, it is only known how the text begins. -/
inductive Writes : List Token → List Char → Prop
  | nil : Writes [] []
  | blank {t : Token} {rest : List Token} {text : List Char} (hin : inExpression t.kind = true)
      (h : Writes rest text) : Writes (t :: rest) (tokenText t.kind ++ ' ' :: text)
  | close {t : Token} {rest : List Token} {text : List Char} (hin : inExpression t.kind = true)
      (hdelimits : Delimits text) (h : Writes rest text) :
      Writes (t :: rest) (tokenText t.kind ++ text)
  | other {t : Token} {rest : List Token} {c : Char} {text : List Char}
      (hin : inExpression t.kind = false) (hc : (tokenText t.kind).head? = some c) :
      Writes (t :: rest) (c :: text)

/-- The parser's writer. -/
theorem writes_space (tokens : List Token) :
    Writes tokens (tokens.flatMap fun t => spaceText t.kind ++ [' ']) := by
  induction tokens with
  | nil => exact .nil
  | cons t rest ih =>
      rw [List.flatMap_cons, List.append_assoc]
      cases hin : inExpression t.kind with
      | true =>
          have htext : spaceText t.kind = tokenText t.kind := by
            obtain ⟨kind, line, col⟩ := t
            cases kind <;> first | rfl | cases hin
          rw [htext]
          exact .blank hin ih
      | false =>
          obtain ⟨kind, line, col⟩ := t
          cases kind <;> first | exact .other hin rfl | cases hin

theorem spaced_inExpression {kind : TokenKind} (hin : inExpression kind = true)
    (next : Option TokenKind) : spaced 0 kind next =
      !(decide (next = some .rBracket) || decide (next = some .rBrace) ||
        decide (next = some .comma)) := by
  cases kind <;> first | (cases hin; done) | simp [spaced]

/-- The linker's writer. -/
theorem writes_stringifyFrom (tokens : List Token) : Writes tokens (stringifyFrom 0 tokens) := by
  induction tokens with
  | nil => exact .nil
  | cons t rest ih =>
      cases hin : inExpression t.kind with
      | false =>
          obtain ⟨kind, line, col⟩ := t
          cases kind <;> first | exact .other hin rfl | cases hin
      | true =>
          have htext : stringifyFrom 0 (t :: rest) = tokenText t.kind ++
              (if spaced 0 t.kind (rest.head?.map Token.kind) then [' '] else []) ++
                stringifyFrom 0 rest := by
            obtain ⟨kind, line, col⟩ := t
            cases kind <;> first | (cases hin; done) | rfl
          rw [htext, spaced_inExpression hin, List.append_assoc]
          split
          · exact .blank hin ih
          · rename_i hclose
            refine .close hin ?_ ih
            cases rest with
            | nil => exact .nil
            | cons next rest =>
                obtain ⟨kind, line, col⟩ := next
                cases kind <;> first | exact absurd rfl hclose | skip
                all_goals
                  rintro c ⟨⟩
                  simp

/-- A text up to its last character that is no blank. -/
def trimEnd (text : List Char) : List Char := (text.reverse.dropWhile isSpace).reverse

theorem trimEnd_append (s text : List Char) : trimEnd (s ++ text) =
    if trimEnd text = [] then trimEnd s else s ++ trimEnd text := by
  unfold trimEnd
  rw [List.reverse_append, List.dropWhile_append]
  simp only [List.isEmpty_iff, List.reverse_eq_nil_iff]
  split
  · rfl
  · rw [List.reverse_append, List.reverse_reverse]

theorem trimEnd_of_not_isSpace {s : List Char} (h : ∀ d ∈ s, isSpace d = false) :
    trimEnd s = s := by
  unfold trimEnd
  have hdrop : s.reverse.dropWhile isSpace = s.reverse := by
    cases hs : s.reverse with
    | nil => rfl
    | cons c rest =>
        have hc : isSpace c = false := h c (List.mem_reverse.mp (hs ▸ .head _))
        rw [List.dropWhile_cons, hc]
        rfl
  rw [hdrop, List.reverse_reverse]

theorem delimits_trimEnd (h : Delimits text) : Delimits (trimEnd text) := by
  cases text with
  | nil => exact h
  | cons c rest =>
      have happend := trimEnd_append [c] rest
      rw [List.singleton_append] at happend
      rw [happend]
      split
      · by_cases hc : isSpace c = true
        · have hnil : trimEnd [c] = [] := by simp [trimEnd, hc]
          rw [hnil]
          exact .nil
        · rw [trimEnd_of_not_isSpace (by simpa using hc)]
          exact fun d hd => h d hd
      · exact fun d hd => h d hd

theorem Writes.trimEnd (hspelled : ∀ t ∈ tokens, Spelled t.kind) (h : Writes tokens text) :
    Writes tokens (trimEnd text) := by
  induction h with
  | nil => exact .nil
  | @blank t rest text hin _ ih =>
      obtain ⟨hne, hspace⟩ := not_isSpace_tokenText (hspelled t (.head _)) hin
      have ih := ih fun t ht => hspelled t (.tail _ ht)
      rw [show tokenText t.kind ++ ' ' :: text = (tokenText t.kind ++ [' ']) ++ text by simp,
        trimEnd_append]
      split
      · rename_i hnil
        rw [trimEnd_append, if_pos (show Playground.trimEnd [' '] = [] from rfl),
          trimEnd_of_not_isSpace hspace]
        rw [hnil] at ih
        have hclose := Writes.close hin .nil ih
        rwa [List.append_nil] at hclose
      · rw [List.append_assoc]
        exact .blank hin ih
  | @close t rest text hin hdelimits _ ih =>
      obtain ⟨hne, hspace⟩ := not_isSpace_tokenText (hspelled t (.head _)) hin
      have ih := ih fun t ht => hspelled t (.tail _ ht)
      rw [trimEnd_append]
      split
      · rename_i hnil
        rw [trimEnd_of_not_isSpace hspace]
        rw [hnil] at ih
        have hclose := Writes.close hin .nil ih
        rwa [List.append_nil] at hclose
      · exact .close hin (delimits_trimEnd hdelimits) ih
  | @other t rest c text hin hc =>
      have hspace : isSpace c = false := by
        obtain ⟨kind, line, col⟩ := t
        cases kind <;> first | (cases hin; done) | (cases hc; rfl)
      rw [show c :: text = [c] ++ text from rfl, trimEnd_append]
      split
      · rw [trimEnd_of_not_isSpace (by simpa using hspace)]
        exact .other hin hc
      · exact .other hin hc

theorem Writes.head_not_isSpace (hspelled : ∀ t ∈ tokens, Spelled t.kind)
    (h : Writes tokens text) : ∀ c ∈ text.head?, isSpace c = false := by
  have hplain : ∀ {t : Token} {text : List Char}, Spelled t.kind → inExpression t.kind = true →
      ∀ c ∈ (tokenText t.kind ++ text).head?, isSpace c = false := by
    intro t text ht hin c hc
    obtain ⟨hne, hspace⟩ := not_isSpace_tokenText ht hin
    cases heq : tokenText t.kind with
    | nil => exact absurd heq hne
    | cons d more =>
        rw [heq] at hc hspace
        cases hc
        exact hspace _ (.head _)
  cases h with
  | nil => nofun
  | blank hin _ => exact hplain (hspelled _ (.head _)) hin
  | close hin _ _ => exact hplain (hspelled _ (.head _)) hin
  | @other t rest c text hin hc =>
      rintro d ⟨⟩
      obtain ⟨kind, line, col⟩ := t
      cases kind <;> first | (cases hin; done) | (cases hc; rfl)

theorem Writes.trim (hspelled : ∀ t ∈ tokens, Spelled t.kind) (h : Writes tokens text) :
    Writes tokens (trim text) := by
  have hstart : trimStart text = text := by
    have hhead := h.head_not_isSpace hspelled
    cases text with
    | nil => rfl
    | cons c rest =>
        rw [trimStart, List.dropWhile_cons, hhead c rfl]
        rfl
  show Writes tokens (Playground.trimEnd (trimStart text))
  rw [hstart]
  exact h.trimEnd hspelled

end Writes

section Lexing

variable {tokens : List Token} {text : List Char}

/-- What written tokens read as. -/
def readKinds : List TokenKind → Option (List TokenKind)
  | [] => some []
  | kind :: rest =>
      (readKind kind).bind fun first => (readKinds rest).map fun more => first ++ more

theorem not_stringLit {kind : TokenKind} (hin : inExpression kind = true) (bytes : List Byte) :
    kind ≠ .stringLit bytes := by
  rintro rfl
  cases hin

theorem lexFrom_tokenText {kind : TokenKind} (hspelled : Spelled kind)
    (hin : inExpression kind = true) {after : List Char} (hafter : Delimits after)
    (line col : Nat) :
    (∃ kinds toks col', readKind kind = some kinds ∧ toks.map Token.kind = kinds ∧
      lexFrom 0 (tokenText kind ++ after) line col =
        (lexFrom 0 after line col').map (toks ++ ·)) ∨
    readKind kind = none ∧ ∃ e, lexFrom 0 (tokenText kind ++ after) line col = .error e := by
  have hreads := reads_tokenText hspelled (not_stringLit hin) after hafter line col
  cases hkind : readKind kind with
  | none =>
      rw [hkind] at hreads
      exact .inr ⟨rfl, hreads⟩
  | some kinds =>
      rw [hkind] at hreads
      obtain ⟨toks, col', htoks, hlex⟩ := hreads
      exact .inl ⟨kinds, toks, col', rfl, htoks, hlex⟩

/-- The text of an expression's tokens lexes to what they read as. -/
theorem Writes.lex (hspelled : ∀ t ∈ tokens, Spelled t.kind) (h : Writes tokens text)
    (hin : ∀ t ∈ tokens, inExpression t.kind = true) (line col : Nat) :
    (lexFrom 0 text line col).toOption.map (·.map Token.kind) =
      readKinds (tokens.map Token.kind) := by
  have hstep : ∀ {t : Token} {rest : List Token} {after : List Char}, Spelled t.kind →
      inExpression t.kind = true → Delimits after →
      (∀ col, (lexFrom 0 after line col).toOption.map (·.map Token.kind) =
        readKinds (rest.map Token.kind)) → ∀ col,
      (lexFrom 0 (tokenText t.kind ++ after) line col).toOption.map (·.map Token.kind) =
        readKinds ((t :: rest).map Token.kind) := by
    intro t rest after ht htin hafter ih col
    rw [List.map_cons, readKinds]
    obtain ⟨kinds, toks, col', hkind, rfl, hlex⟩ | ⟨hkind, e, hlex⟩ :=
      lexFrom_tokenText ht htin hafter line col
    · rw [hkind, hlex, ← ih col']
      cases lexFrom 0 after line col' with
      | error e => rfl
      | ok more => simp [Except.map, Except.toOption]
    · rw [hkind, hlex]
      rfl
  induction h generalizing col with
  | nil => rfl
  | blank htin _ ih =>
      refine hstep (hspelled _ (.head _)) htin (.blank _) (fun col => ?_) col
      exact ih (fun t ht => hspelled t (.tail _ ht)) (fun t ht => hin t (.tail _ ht)) (col + 1)
  | close htin hdelimits _ ih =>
      refine hstep (hspelled _ (.head _)) htin hdelimits (fun col => ?_) col
      exact ih (fun t ht => hspelled t (.tail _ ht)) (fun t ht => hin t (.tail _ ht)) col
  | other htin _ =>
      have htrue := hin _ (.head _)
      rw [htin] at htrue
      cases htrue

/-- What begins as no token of an expression lexes to such a token, if at all. -/
theorem lexFrom_other {kind : TokenKind} (hin : inExpression kind = false) {c : Char}
    (hc : (tokenText kind).head? = some c) {line col : Nat} {toks : List Token}
    (h : lexFrom 0 (c :: text) line col = .ok toks) : ∃ t ∈ toks, inExpression t.kind = false := by
  have hspace : isSpace c = false := by
    cases kind <;> first | (cases hin; done) | (cases hc; rfl)
  rw [lexFrom_cons hspace] at h
  obtain ⟨⟨k, used⟩, hnext, h⟩ := bind_eq_ok h
  obtain ⟨more, -, h⟩ := bind_eq_ok h
  cases h
  refine ⟨_, .head _, ?_⟩
  show inExpression k = false
  cases kind with
  | stringLit bytes =>
      cases hc
      obtain ⟨p, -, hp⟩ := bind_eq_ok (show (parseStringBody line 0 text >>= fun p =>
        .ok (.stringLit p.1, p.2 + 1)) = .ok (k, used) from hnext)
      cases hp
      rfl
  | _ => first | (cases hin; done) | (cases hc; cases hnext; rfl)

/-- A text with another token lexes to one, if at all. -/
theorem Writes.lex_other (hspelled : ∀ t ∈ tokens, Spelled t.kind) (h : Writes tokens text)
    (hother : ∃ t ∈ tokens, inExpression t.kind = false) {line col : Nat} {toks : List Token}
    (hlex : lexFrom 0 text line col = .ok toks) : ∃ t ∈ toks, inExpression t.kind = false := by
  have hrest : ∀ {t : Token} {rest : List Token}, inExpression t.kind = true →
      (∃ t' ∈ t :: rest, inExpression t'.kind = false) →
      ∃ t' ∈ rest, inExpression t'.kind = false := by
    rintro t rest htin ⟨t', ht', hfalse⟩
    rcases List.mem_cons.mp ht' with rfl | ht'
    · rw [htin] at hfalse
      cases hfalse
    · exact ⟨t', ht', hfalse⟩
  have hstep : ∀ {t : Token} {after : List Char}, Spelled t.kind →
      inExpression t.kind = true → Delimits after →
      (∀ {col toks}, lexFrom 0 after line col = .ok toks →
        ∃ t ∈ toks, inExpression t.kind = false) → ∀ {col toks},
      lexFrom 0 (tokenText t.kind ++ after) line col = .ok toks →
        ∃ t ∈ toks, inExpression t.kind = false := by
    intro t after ht htin hafter ih col toks hlex
    obtain ⟨kinds, first, col', -, -, hfirst⟩ | ⟨-, e, he⟩ :=
      lexFrom_tokenText ht htin hafter line col
    · rw [hfirst] at hlex
      cases hmore : lexFrom 0 after line col' with
      | error e => rw [hmore] at hlex; cases hlex
      | ok more =>
          rw [hmore] at hlex
          cases hlex
          obtain ⟨t', ht', hfalse⟩ := ih hmore
          exact ⟨t', List.mem_append_right _ ht', hfalse⟩
    · rw [he] at hlex
      cases hlex
  induction h generalizing col toks with
  | nil =>
      obtain ⟨t, ht, -⟩ := hother
      cases ht
  | blank htin _ ih =>
      refine hstep (hspelled _ (.head _)) htin (.blank _) (fun {col toks} hlex => ?_) hlex
      exact ih (fun t ht => hspelled t (.tail _ ht)) (hrest htin hother) hlex
  | close htin hdelimits _ ih =>
      refine hstep (hspelled _ (.head _)) htin hdelimits (fun {col toks} hlex => ?_) hlex
      exact ih (fun t ht => hspelled t (.tail _ ht)) (hrest htin hother) hlex
  | other htin hc => exact lexFrom_other htin hc hlex

end Lexing

end Playground
