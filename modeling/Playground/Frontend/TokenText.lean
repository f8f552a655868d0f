/-
A text the lexer accepts as the list of its lexemes: blanks, literals, and tokens whose
characters are plain.  Appending a blank, or going on alike, changes none of them.
-/
import Playground.Frontend.Lookahead

namespace Playground

namespace Lexer

/-- A character inside a token that is no literal. -/
def isPlain (c : Char) : Bool :=
  isGlue c || c = '[' || c = ']' || c = '+' || c = '-' || c = '<' || c = '>'

theorem isPlain_of_isGlue {c : Char} (hc : isGlue c = true) : isPlain c = true := by
  simp [isPlain, hc]

theorem isPlain_of_isDigit {c : Char} (hc : c.isDigit = true) : isPlain c = true :=
  isPlain_of_isGlue (isGlue_of_isDigit hc)

section Shape

variable {s : List Char} {line col used : Nat} {kind : TokenKind}

theorem Arrangement.isPlain {n : Nat} (h : Arrangement s n) :
    n ≤ s.length ∧ ∀ d ∈ s.take n, isPlain d = true := by
  cases h with
  | @whole suffix more hmem hlong =>
      have hlen : 1 + suffix.length = ('.' :: suffix).length := Nat.add_comm _ _
      rw [hlen, ← List.cons_append, List.take_left]
      exact ⟨by simp, fun d hd => isPlain_of_isGlue (isGlue_dot_suffix hmem d hd)⟩
  | @lane suffix digits more hmem hshort hne hdigits =>
      rw [show '.' :: (suffix ++ '[' :: (digits ++ ']' :: more)) =
        ('.' :: suffix ++ '[' :: (digits ++ [']'])) ++ more by simp,
        List.take_left' (by simp; omega)]
      refine ⟨by simp; omega, fun d hd => ?_⟩
      rcases List.mem_append.1 hd with hd | hd
      · exact isPlain_of_isGlue (isGlue_dot_suffix hmem d hd)
      · simp only [List.mem_cons, List.mem_append, List.not_mem_nil, or_false] at hd
        rcases hd with rfl | hd | rfl
        · decide
        · exact isPlain_of_isDigit (hdigits d hd)
        · decide

theorem dottedTail_isPlain {dotted : Bool} (hs : dotted = true → s.head?.any isIdContinue = true) :
    dottedTail dotted s ≤ s.length ∧ ∀ d ∈ s.take (dottedTail dotted s), isPlain d = true := by
  have hcons {c : Char} {s : List Char} {n : Nat} (hc : Lexer.isPlain c = true)
      (h : n ≤ s.length ∧ ∀ d ∈ s.take n, Lexer.isPlain d = true) :
      n + 1 ≤ (c :: s).length ∧ ∀ d ∈ (c :: s).take (n + 1), Lexer.isPlain d = true := by
    rw [List.take_succ_cons]
    exact ⟨Nat.succ_le_succ h.1, List.forall_mem_cons.2 ⟨hc, h.2⟩⟩
  have hnone (s : List Char) : 0 ≤ s.length ∧ ∀ d ∈ s.take 0, Lexer.isPlain d = true := by simp
  fun_induction dottedTail dotted s with
  | case1 c rest ih =>
      have hc : isIdContinue c = true := by simpa using hs rfl
      exact hcons (isPlain_of_isGlue (isGlue_of_isIdContinue hc))
        (ih fun h => absurd h Bool.false_ne_true)
  | case2 c rest hc ih => exact hcons (by decide) (ih fun _ => by simpa using hc)
  | case3 c rest hc => exact hnone _
  | case4 c rest hdot hc ih =>
      exact hcons (isPlain_of_isGlue (isGlue_of_isIdContinue hc))
        (ih fun h => absurd h Bool.false_ne_true)
  | case5 c rest hdot hc => exact hnone _
  | case6 dotted => exact hnone _

theorem take_append_length (p : Char → Bool) (s : List Char) (k : Nat) :
    s.take ((s.takeWhile p).length + k) = s.takeWhile p ++ (s.dropWhile p).take k := by
  conv_lhs => arg 2; rw [← List.takeWhile_append_dropWhile (p := p) (l := s)]
  rw [List.take_length_add_append]

theorem length_takeWhile_add_le {p : Char → Bool} {k : Nat} (h : k ≤ (s.dropWhile p).length) :
    (s.takeWhile p).length + k ≤ s.length := by
  conv_rhs => rw [← List.takeWhile_append_dropWhile (p := p) (l := s), List.length_append]
  omega

theorem identLength_isPlain (s : List Char) :
    identLength s ≤ s.length ∧ ∀ d ∈ s.take (identLength s), isPlain d = true := by
  have htail (name rest : List Char) : tailLength name rest ≤ rest.length ∧
      ∀ d ∈ rest.take (tailLength name rest), isPlain d = true := by
    unfold tailLength
    split
    · rename_i n hn
      exact (arrangement_of_vectorSuffixLength hn).2.isPlain
    · split
      · simp
      · exact dottedTail_isPlain nofun
  obtain ⟨hlen, hplain⟩ := htail (s.takeWhile isIdContinue) (s.dropWhile isIdContinue)
  rw [identLength_eq, take_append_length]
  refine ⟨length_takeWhile_add_le hlen, fun d hd => ?_⟩
  rcases List.mem_append.1 hd with hd | hd
  · exact isPlain_of_isGlue (isGlue_of_isIdContinue (List.mem_takeWhile_imp hd))
  · exact hplain d hd

theorem exponentDigits_isPlain (s : List Char) :
    (exponentDigits s).length ≤ s.length ∧ ∀ d ∈ exponentDigits s, isPlain d = true := by
  have hlen : (exponentDigits s).length ≤ s.length := by
    have hfront := congrArg List.length (prefix_exponentDigits s)
    rw [List.length_take] at hfront
    omega
  refine ⟨hlen, ?_⟩
  cases s with
  | nil => simp [exponentDigits]
  | cons c rest =>
      rw [exponentDigits]
      by_cases hsign : c = '+' ∨ c = '-'
      · by_cases hdigits : rest.takeWhile Char.isDigit = []
        · simp [hsign, hdigits]
        · rw [if_pos hsign, if_neg hdigits]
          refine List.forall_mem_cons.2 ⟨?_, fun d hd =>
            isPlain_of_isDigit (List.mem_takeWhile_imp hd)⟩
          rcases hsign with rfl | rfl <;> decide
      · rw [if_neg hsign]
        exact fun d hd => isPlain_of_isDigit (List.mem_takeWhile_imp hd)

theorem exponentLength_isPlain (s : List Char) :
    exponentLength s ≤ s.length ∧ ∀ d ∈ s.take (exponentLength s), isPlain d = true := by
  cases s with
  | nil => simp [exponentLength]
  | cons c rest =>
      rw [exponentLength_cons]
      split
      · rename_i hexponent
        obtain ⟨hlen, hplain⟩ := exponentDigits_isPlain rest
        rw [List.take_succ_cons, prefix_exponentDigits]
        refine ⟨Nat.succ_le_succ hlen, List.forall_mem_cons.2 ⟨?_, hplain⟩⟩
        rcases hexponent.1 with rfl | rfl <;> decide
      · simp

theorem floatTail_isPlain (h : fractionLength s ≠ 0) :
    floatTail s ≤ s.length ∧ ∀ d ∈ s.take (floatTail s), isPlain d = true := by
  cases s with
  | nil => exact absurd rfl h
  | cons c rest =>
      by_cases hdot : c = '.'
      · subst hdot
        have htail : floatTail ('.' :: rest) = (rest.takeWhile Char.isDigit).length +
            exponentLength (rest.dropWhile Char.isDigit) + 1 := by
          rw [floatTail, fractionLength, Nat.add_comm 1, List.drop_succ_cons,
            drop_takeWhile_length]
          omega
        obtain ⟨hlen, hplain⟩ := exponentLength_isPlain (rest.dropWhile Char.isDigit)
        rw [htail, List.take_succ_cons, take_append_length]
        refine ⟨Nat.succ_le_succ (length_takeWhile_add_le hlen),
          List.forall_mem_cons.2 ⟨by decide, fun d hd => ?_⟩⟩
        rcases List.mem_append.1 hd with hd | hd
        · exact isPlain_of_isDigit (List.mem_takeWhile_imp hd)
        · exact hplain d hd
      · exact absurd (fractionLength_of_ne hdot rest) h

theorem signedTail_isPlain (text s : List Char) :
    signedTail text s ≤ s.length ∧ ∀ d ∈ s.take (signedTail text s), isPlain d = true := by
  cases s with
  | nil => simp [signedTail]
  | cons c rest =>
      rw [signedTail]
      split
      · rename_i hsign
        rw [Nat.add_comm, List.take_succ_cons, take_takeWhile_length]
        refine ⟨Nat.succ_le_succ ((List.takeWhile_prefix _).length_le), List.forall_mem_cons.2 ⟨?_,
          fun d hd => isPlain_of_isDigit (List.mem_takeWhile_imp hd)⟩⟩
        rcases hsign.2.1 with rfl | rfl <;> decide
      · simp

theorem numberResult_isPlain {text : List Char} (htext : ∀ d ∈ text, isPlain d = true)
    (h : numberResult text s line = .ok (kind, used)) :
    text.length ≤ used ∧ used ≤ (text ++ s).length ∧
      ∀ d ∈ (text ++ s).take used, isPlain d = true := by
  have hreach {k : Nat} (hk : k ≤ s.length ∧ ∀ d ∈ s.take k, isPlain d = true)
      (hused : used = text.length + k) : text.length ≤ used ∧ used ≤ (text ++ s).length ∧
        ∀ d ∈ (text ++ s).take used, isPlain d = true := by
    rw [hused, List.take_length_add_append, List.length_append]
    refine ⟨by omega, by omega, fun d hd => ?_⟩
    rcases List.mem_append.1 hd with hd | hd
    · exact htext d hd
    · exact hk.2 d hd
  have hinteger {t : List Char} {k : Nat} (hk : k ≤ s.length ∧ ∀ d ∈ s.take k, isPlain d = true)
      (ht : t = text ++ s.take k) (h : integerResult t line = .ok (kind, used)) :
      text.length ≤ used ∧ used ≤ (text ++ s).length ∧
        ∀ d ∈ (text ++ s).take used, isPlain d = true := by
    unfold integerResult at h
    cases hparse : parseInt t with
    | none => simp [hparse] at h
    | some value =>
        rw [hparse] at h
        obtain ⟨-, rfl⟩ := Prod.mk.inj (Except.ok.inj h)
        refine hreach hk ?_
        rw [ht, List.length_append, List.length_take, Nat.min_eq_left hk.1]
  have hzero : 0 ≤ s.length ∧ ∀ d ∈ s.take 0, isPlain d = true := by simp
  unfold numberResult at h
  split at h
  · rename_i hdecimal
    unfold floatResult at h
    split at h
    · obtain ⟨-, rfl⟩ := Prod.mk.inj (Except.ok.inj h)
      exact hreach (floatTail_isPlain hdecimal.2) rfl
    · cases h
  · split at h
    · split at h
      · obtain ⟨-, rfl⟩ := Prod.mk.inj (Except.ok.inj h)
        exact hreach (signedTail_isPlain text s) rfl
      · exact hinteger (signedTail_isPlain text s) rfl h
    · exact hinteger hzero (by simp) h

theorem isPlain_of_isFloatBody {c : Char} (hc : isFloatBody c = true) : isPlain c = true := by
  rcases isGlue_of_isFloatBody hc with hc | rfl | rfl
  · exact isPlain_of_isGlue hc
  · decide
  · decide

theorem parseNumber_isPlain {c : Char} (hc : c.isDigit = true)
    (h : parseNumber (c :: s) line = .ok (kind, used)) :
    1 ≤ used ∧ used ≤ (c :: s).length ∧ ∀ d ∈ (c :: s).take used, isPlain d = true := by
  by_cases hradix : ∃ r rest, c :: s = '0' :: r :: rest ∧ (r = 'r' ∨ r = 'R')
  · obtain ⟨r, rest, heq, hr⟩ := hradix
    rw [heq] at h ⊢
    rw [parseNumber_radix hr] at h
    unfold floatResult at h
    split at h
    · obtain ⟨-, rfl⟩ := Prod.mk.inj (Except.ok.inj h)
      rw [List.take_succ_cons, List.take_succ_cons, take_takeWhile_length]
      refine ⟨by omega, Nat.succ_le_succ (Nat.succ_le_succ ((List.takeWhile_prefix _).length_le)),
        List.forall_mem_cons.2 ⟨by decide, List.forall_mem_cons.2 ⟨?_, fun d hd =>
          isPlain_of_isFloatBody (List.mem_takeWhile_imp hd)⟩⟩⟩
      rcases hr with rfl | rfl <;> decide
    · cases h
  · have hplain (rest : List Char) :
        c :: s ≠ '0' :: 'r' :: rest ∧ c :: s ≠ '0' :: 'R' :: rest :=
      ⟨fun heq => hradix ⟨_, _, heq, Or.inl rfl⟩, fun heq => hradix ⟨_, _, heq, Or.inr rfl⟩⟩
    rw [parseNumber_eq hplain] at h
    have hnumber := numberResult_isPlain
      (fun d hd => isPlain_of_isGlue (isGlue_of_isIntBody (List.mem_takeWhile_imp hd))) h
    rw [List.takeWhile_append_dropWhile] at hnumber
    have hpos : 1 ≤ ((c :: s).takeWhile isIntBody).length := by
      rw [List.takeWhile_cons, if_pos (isIntBody_of_isDigit hc)]
      simp
    exact ⟨hpos.trans hnumber.1, hnumber.2⟩

theorem identLength_pos {c : Char} (hc : isIdContinue c = true) (s : List Char) :
    1 ≤ identLength (c :: s) := by
  rw [identLength_eq, List.takeWhile_cons, if_pos hc, List.length_cons]
  omega

/-- A token that is no literal starts at no `;`, fits, and goes on with plain characters. -/
theorem nextToken_isPlain {c : Char} (hquote : c ≠ '"' ∧ c ≠ '\'')
    (h : nextToken c s line col = .ok (kind, used)) :
    1 ≤ used ∧ used ≤ s.length + 1 ∧ (∀ d ∈ s.take (used - 1), isPlain d = true) ∧ c ≠ ';' := by
  have hdrop {n : Nat} (hpos : 1 ≤ n) (hlen : n ≤ (c :: s).length)
      (hplain : ∀ d ∈ (c :: s).take n, isPlain d = true) (hc : c ≠ ';') :
      1 ≤ n ∧ n ≤ s.length + 1 ∧ (∀ d ∈ s.take (n - 1), isPlain d = true) ∧ c ≠ ';' := by
    obtain ⟨n, rfl⟩ : ∃ m, n = m + 1 := ⟨n - 1, by omega⟩
    rw [List.take_succ_cons] at hplain
    exact ⟨hpos, hlen, fun d hd => hplain d (List.mem_cons_of_mem c hd), hc⟩
  have hname : (s.takeWhile isIdContinue).length + 1 ≤ s.length + 1 ∧
      ∀ d ∈ s.take ((s.takeWhile isIdContinue).length + 1 - 1), isPlain d = true := by
    rw [Nat.add_sub_cancel, take_takeWhile_length]
    exact ⟨Nat.succ_le_succ ((List.takeWhile_prefix _).length_le), fun d hd =>
      isPlain_of_isGlue (isGlue_of_isIdContinue (List.mem_takeWhile_imp hd))⟩
  by_cases hdigit : c.isDigit = true
  · rw [nextToken_digit hdigit] at h
    obtain ⟨hpos, hlen, hplain⟩ := parseNumber_isPlain hdigit h
    exact hdrop hpos hlen hplain (by rintro rfl; exact absurd hdigit (by decide))
  · by_cases hstart : isIdStart c = true
    · rw [nextToken_ident hstart] at h
      obtain ⟨-, rfl⟩ := Prod.mk.inj (Except.ok.inj h)
      obtain ⟨hlen, hplain⟩ := identLength_isPlain (c :: s)
      exact hdrop (identLength_pos (isIdContinue_of_isIdStart hstart) s) hlen hplain
        (by rintro rfl; exact absurd hstart (by decide))
    · by_cases hdot : c = '.'
      · subst hdot
        rw [nextToken_dot] at h
        split at h <;> obtain ⟨-, rfl⟩ := Prod.mk.inj (Except.ok.inj h)
        · exact ⟨by omega, hname.1, hname.2, by decide⟩
        · exact ⟨by omega, by omega, by simp, by decide⟩
      · by_cases hat : c = '@' ∧ s.head?.any isIdStart = true
        · obtain ⟨rfl, hword⟩ := hat
          rw [nextToken_at hword] at h
          obtain ⟨-, rfl⟩ := Prod.mk.inj (Except.ok.inj h)
          exact ⟨by omega, hname.1, hname.2, by decide⟩
        · unfold nextToken at h
          cases hkind : singleChar c with
          | some single =>
              rw [hkind] at h
              obtain ⟨-, rfl⟩ := Prod.mk.inj (Except.ok.inj h)
              refine ⟨by omega, by omega, by simp, ?_⟩
              rintro rfl
              exact absurd hkind (by simp [singleChar])
          | none =>
              have hpair {d : Char} (hd : s.head? = some d) (hplain : isPlain d = true) :
                  1 ≤ 2 ∧ 2 ≤ s.length + 1 ∧ ∀ d ∈ s.take (2 - 1), isPlain d = true := by
                cases s with
                | nil => simp at hd
                | cons e s =>
                    obtain rfl : e = d := by simpa using hd
                    simp [hplain]
              rw [hkind] at h
              simp only [hdot, hdigit, hquote, hstart, if_false, Bool.false_eq_true] at h
              split at h
              · rename_i hless
                split at h
                · rename_i hd
                  obtain ⟨-, rfl⟩ := Prod.mk.inj (Except.ok.inj h)
                  obtain ⟨hone, hlen, hplain⟩ := hpair hd (by decide)
                  exact ⟨hone, hlen, hplain, by rw [hless]; decide⟩
                · cases h
              · split at h
                · rename_i hgreater
                  split at h
                  · rename_i hd
                    obtain ⟨-, rfl⟩ := Prod.mk.inj (Except.ok.inj h)
                    obtain ⟨hone, hlen, hplain⟩ := hpair hd (by decide)
                    exact ⟨hone, hlen, hplain, by rw [hgreater]; decide⟩
                  · cases h
                · split at h <;> cases h

end Shape

/-- Whether a word would stick to the end of a text. -/
def glueAfter (glued : Bool) : List Char → Bool
  | [] => glued
  | c :: t => glueAfter (isGlue c) t

theorem Alike.append_of_glueAfter {glued : Bool} {t s s' : List Char}
    (h : Alike (glueAfter glued t) s s') : Alike glued (t ++ s) (t ++ s') := by
  induction t generalizing glued with
  | nil => exact h
  | cons c t ih => exact .same c (ih h)

section Literal

variable {text s : List Char} {line col used : Nat} {kind : TokenKind}

/-- A string literal at the front. -/
theorem of_nextToken_string (h : nextToken '"' s line col = .ok (kind, used)) :
    ∃ text rest, s = text ++ rest ∧ used = text.length + 1 ∧ Closed '"' text ∧
      '\n' ∉ text ∧ ∀ after line' col',
        nextToken '"' (text ++ after) line' col' = .ok (kind, used) := by
  obtain ⟨⟨bytes, n⟩, hbody, hret⟩ := bind_eq_ok (show
    (parseStringBody line 0 s >>= fun p => pure (TokenKind.stringLit p.1, p.2 + 1)) = _ from h)
  obtain ⟨rfl, rfl⟩ := Prod.mk.inj (Except.ok.inj hret)
  obtain ⟨-, hlen, hclosed, hline, hafter⟩ := of_parseStringBody hbody (by simp)
  refine ⟨s.take n, s.drop n, (List.take_append_drop n s).symm,
    by rw [List.length_take, Nat.min_eq_left hlen], hclosed, hline, fun after line' col' => ?_⟩
  change (parseStringBody line' 0 (s.take n ++ after) >>= fun p =>
    pure (TokenKind.stringLit p.1, p.2 + 1)) = _
  rw [hafter after line']
  rfl

/-- A character literal at the front. -/
theorem of_nextToken_char (h : nextToken '\'' s line col = .ok (kind, used)) :
    ∃ text rest, s = text ++ rest ∧ used = text.length + 1 ∧
      (text = ['\'', '\''] ∨ Closed '\'' text) ∧
      ∀ after line' col', nextToken '\'' (text ++ after) line' col' = .ok (kind, used) := by
  obtain ⟨⟨value, n⟩, hchar, hret⟩ := bind_eq_ok (show
    (parseCharLiteral ('\'' :: s) line >>= fun p => pure (TokenKind.charLit p.1, p.2)) = _ from h)
  obtain ⟨rfl, rfl⟩ := Prod.mk.inj (Except.ok.inj hret)
  obtain ⟨text, rest, hsplit, hused, hclosed, hafter⟩ := of_parseCharLiteral hchar
  refine ⟨text, rest, hsplit, hused, hclosed, fun after line' col' => ?_⟩
  change (parseCharLiteral ('\'' :: (text ++ after)) line' >>= fun p =>
    pure (TokenKind.charLit p.1, p.2)) = _
  rw [hafter after line']
  rfl

theorem nextToken_used {c : Char} (h : nextToken c s line col = .ok (kind, used)) :
    ∃ text rest, s = text ++ rest ∧ used = text.length + 1 := by
  by_cases hstring : c = '"'
  · subst hstring
    obtain ⟨text, rest, hsplit, hused, -⟩ := of_nextToken_string h
    exact ⟨text, rest, hsplit, hused⟩
  · by_cases hchar : c = '\''
    · subst hchar
      obtain ⟨text, rest, hsplit, hused, -⟩ := of_nextToken_char h
      exact ⟨text, rest, hsplit, hused⟩
    · obtain ⟨hpos, hlen, -⟩ := nextToken_isPlain ⟨hstring, hchar⟩ h
      refine ⟨s.take (used - 1), s.drop (used - 1), (List.take_append_drop _ _).symm, ?_⟩
      rw [List.length_take]
      omega

/-- A token is read again, on any line, before a text that goes on alike behind it. -/
theorem nextToken_append {c : Char} {s' : List Char}
    (h : nextToken c (text ++ s) line col = .ok (kind, text.length + 1))
    (halike : Alike (glueAfter (isGlue c) text) s s') (line' col' : Nat) :
    nextToken c (text ++ s') line' col' = .ok (kind, text.length + 1) := by
  have hsame {t rest : List Char} (hsplit : text ++ s = t ++ rest)
      (hlen : text.length + 1 = t.length + 1) : text = t :=
    List.append_inj_left hsplit (by omega)
  by_cases hstring : c = '"'
  · subst hstring
    obtain ⟨t, rest, hsplit, hlen, -, -, hafter⟩ := of_nextToken_string h
    obtain rfl := hsame hsplit hlen
    exact hafter s' line' col'
  · by_cases hchar : c = '\''
    · subst hchar
      obtain ⟨t, rest, hsplit, hlen, -, hafter⟩ := of_nextToken_char h
      obtain rfl := hsame hsplit hlen
      exact hafter s' line' col'
    · exact halike.append_of_glueAfter.nextToken ⟨hstring, hchar⟩ h

end Literal

/-- A blank, or a token with its text. -/
inductive Lexeme
  | blank (b : Char)
  | token (kind : TokenKind) (text : List Char)

def Lexeme.text : Lexeme → List Char
  | .blank b => [b]
  | .token _ text => text

/-- The lexemes of a text, first to last. -/
inductive Lexes : List Char → List Lexeme → Prop
  | nil : Lexes [] []
  | blank {b : Char} {s : List Char} {ls : List Lexeme} (hb : isBlank b = true)
      (h : Lexes s ls) : Lexes (b :: s) (.blank b :: ls)
  | token {c : Char} {text s : List Char} {ls : List Lexeme} {kind : TokenKind} {line col : Nat}
      (hc : isBlank c = false)
      (hread : nextToken c (text ++ s) line col = .ok (kind, text.length + 1))
      (h : Lexes s ls) : Lexes (c :: (text ++ s)) (.token kind (c :: text) :: ls)

def place : List Lexeme → Nat → Nat → List Token
  | [], _, _ => []
  | .blank b :: ls, line, col => if b = '\n' then place ls (line + 1) 1 else place ls line (col + 1)
  | .token kind text :: ls, line, col => ⟨kind, line, col⟩ :: place ls line (col + utf8Size text)

theorem Lexes.eq_flatMap {s : List Char} {ls : List Lexeme} (h : Lexes s ls) :
    s = ls.flatMap Lexeme.text := by
  induction h with
  | nil => rfl
  | blank hb h ih => simp [Lexeme.text, ← ih]
  | token hc hread h ih => simp [Lexeme.text, ← ih]

section Lex

variable {s : List Char} {ls : List Lexeme} {line col : Nat}

theorem lexFrom_skip_eq (text after : List Char) (line col : Nat) :
    lexFrom text.length (text ++ after) line col =
      lexFrom 0 after line (col + (text.map Char.utf8Size).sum) := by
  induction text generalizing col with
  | nil => rfl
  | cons c text ih =>
      rw [List.length_cons, List.cons_append, lexFrom, ih]
      simp [Nat.add_assoc]

theorem lexFrom_blank {b : Char} (hb : isBlank b = true) (s : List Char) (line col : Nat) :
    lexFrom 0 (b :: s) line col =
      if b = '\n' then lexFrom 0 s (line + 1) 1 else lexFrom 0 s line (col + 1) := by
  rcases isBlank_cases hb with rfl | rfl | rfl | rfl <;> rfl

theorem lexFrom_of_not_blank {c : Char} (hc : isBlank c = false) (s : List Char) (line col : Nat) :
    lexFrom 0 (c :: s) line col = nextToken c s line col >>= fun r =>
      lexFrom (r.2 - 1) s line (col + c.utf8Size) >>= fun tokens =>
        pure (⟨r.1, line, col⟩ :: tokens) := by
  have hnewline : c ≠ '\n' := by rintro rfl; exact absurd hc (by decide)
  have hspace : ¬ (c = '\r' ∨ c = ' ' ∨ c = '\t') := by
    rintro (rfl | rfl | rfl) <;> exact absurd hc (by decide)
  rw [lexFrom, if_neg hnewline, if_neg hspace]

/-- The lexer gives the tokens of a text's lexemes. -/
theorem Lexes.lexFrom_eq (h : Lexes s ls) : lexFrom 0 s line col = .ok (place ls line col) := by
  induction h generalizing line col with
  | nil => rfl
  | @blank b s ls hb h ih =>
      rw [lexFrom_blank hb, place]
      split
      · exact ih
      · exact ih
  | @token c text s ls kind line₀ col₀ hc hread h ih =>
      have hread' := nextToken_append hread (.refl _ s) line col
      rw [lexFrom_of_not_blank hc, hread']
      change (lexFrom (text.length + 1 - 1) (text ++ s) line (col + c.utf8Size) >>= fun tokens =>
        pure (⟨kind, line, col⟩ :: tokens)) = _
      rw [Nat.add_sub_cancel, lexFrom_skip_eq, ih]
      simp [place, utf8Size, Nat.add_assoc, pure, Except.pure, bind, Except.bind]

/-- A text that the lexer accepts has lexemes. -/
theorem exists_lexes {tokens : List Token} (h : lexFrom 0 s line col = .ok tokens) :
    ∃ ls, Lexes s ls ∧ tokens = place ls line col := by
  suffices hlexes : ∃ ls, Lexes s ls by
    obtain ⟨ls, hls⟩ := hlexes
    exact ⟨ls, hls, Except.ok.inj (h.symm.trans hls.lexFrom_eq)⟩
  induction hn : s.length using Nat.strong_induction_on generalizing s line col tokens with
  | _ n ih =>
      subst hn
      cases s with
      | nil => exact ⟨[], .nil⟩
      | cons c s =>
          by_cases hc : isBlank c = true
          · rw [lexFrom_blank hc] at h
            have hrest : ∃ ls, Lexes s ls := by
              split at h
              · exact ih s.length (by simp) h rfl
              · exact ih s.length (by simp) h rfl
            obtain ⟨ls, hls⟩ := hrest
            exact ⟨_, .blank hc hls⟩
          · have hc : isBlank c = false := by simpa using hc
            rw [lexFrom_of_not_blank hc] at h
            obtain ⟨⟨kind, used⟩, hread, h⟩ := bind_eq_ok h
            obtain ⟨more, hmore, -⟩ := bind_eq_ok h
            obtain ⟨text, rest, rfl, rfl⟩ := nextToken_used hread
            simp only [Nat.add_sub_cancel] at hmore
            rw [lexFrom_skip_eq] at hmore
            obtain ⟨ls, hls⟩ := ih rest.length (by simp) hmore rfl
            exact ⟨_, .token hc hread hls⟩

/-- A blank after a text adds itself to its lexemes. -/
theorem Lexes.append_blank {b : Char} (hb : isBlank b = true) (h : Lexes s ls) :
    Lexes (s ++ [b]) (ls ++ [.blank b]) := by
  induction h with
  | nil => exact .blank hb .nil
  | blank hb' h ih => exact .blank hb' ih
  | @token c text s ls kind line col hc hread h ih =>
      have halike (glued : Bool) : Alike glued s (s ++ [b]) := by
        have happend : Alike glued (s ++ []) (s ++ [b]) := Alike.append s fun _ => .more hb
        rwa [List.append_nil] at happend
      rw [List.cons_append, List.append_assoc]
      exact .token hc (nextToken_append hread (halike _) line col) ih

theorem place_append_blank {b : Char} (hb : b ≠ '\n') (ls : List Lexeme) (line col : Nat) :
    place (ls ++ [.blank b]) line col = place ls line col := by
  induction ls generalizing line col with
  | nil => simp [place, hb]
  | cons l ls ih =>
      cases l with
      | blank c =>
          rw [List.cons_append, place, place, ih, ih]
      | token kind text => rw [List.cons_append, place, place, ih]

end Lex

end Lexer

end Playground
