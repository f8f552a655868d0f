/-
How far the lexer looks past a token: two texts that go on alike, up to where one of them
has a different word behind a mark or ends before a blank, start with the same token.
-/
import Playground.Frontend.Quoted
import Playground.Frontend.Relex

namespace Playground

namespace Lexer

def isBlank (c : Char) : Bool := c = '\n' || c = '\r' || c = ' ' || c = '\t'

/-- A character that can stick to a word after it. -/
def isGlue (c : Char) : Bool := isIdContinue c || c = '.' || c = '@'

/-- Texts that are the same up to a blank and an end, or up to two words behind a
character that does not stick to them; `glued` is whether the one before does. -/
inductive Alike : Bool → List Char → List Char → Prop
  | nil {glued : Bool} : Alike glued [] []
  | same {glued : Bool} (c : Char) {s s' : List Char} (h : Alike (isGlue c) s s') :
      Alike glued (c :: s) (c :: s')
  | swap {c d : Char} {s s' : List Char} (hc : isIdStart c = true) (hd : isIdStart d = true) :
      Alike false (c :: s) (d :: s')
  | more {glued : Bool} {b : Char} {s : List Char} (hb : isBlank b = true) : Alike glued [] (b :: s)
  | less {glued : Bool} {b : Char} {s : List Char} (hb : isBlank b = true) : Alike glued (b :: s) []

theorem Alike.refl (glued : Bool) (s : List Char) : Alike glued s s := by
  induction s generalizing glued with
  | nil => exact .nil
  | cons c s ih => exact .same c (ih _)

theorem Alike.symm {glued : Bool} {s s' : List Char} (h : Alike glued s s') :
    Alike glued s' s := by
  induction h with
  | nil => exact .nil
  | same c _ ih => exact .same c ih
  | swap hc hd => exact .swap hd hc
  | more hb => exact .less hb
  | less hb => exact .more hb

/-- The same text goes on in front of texts that go on alike behind a character that sticks
to nothing. -/
theorem Alike.append {glued : Bool} (t : List Char) {s s' : List Char}
    (h : ∀ glued, Alike glued s s') : Alike glued (t ++ s) (t ++ s') := by
  induction t generalizing glued with
  | nil => exact h glued
  | cons c t ih => exact .same c ih

theorem not_isGlue_of_isBlank {b : Char} (hb : isBlank b = true) : isGlue b = false := by
  simp only [isBlank, Bool.or_eq_true, decide_eq_true_eq] at hb
  rcases hb with ((rfl | rfl) | rfl) | rfl <;> decide

theorem isGlue_of_isDigit {c : Char} (hc : c.isDigit = true) : isGlue c = true := by
  simp [isGlue, isIdContinue, hc]

theorem isIdContinue_of_isIntBody {c : Char} (hc : isIntBody c = true) :
    isIdContinue c = true := by
  simp only [isIntBody, isHexDigit, Bool.or_eq_true, Bool.and_eq_true, decide_eq_true_eq,
    Char.le_def, UInt32.le_iff_toNat_le] at hc
  simp only [isIdContinue, Char.isAlpha, Char.isUpper, Char.isLower, Bool.or_eq_true,
    Bool.and_eq_true, decide_eq_true_eq, ge_iff_le, UInt32.le_iff_toNat_le]
  simp at hc ⊢
  rcases hc with ((((hdigit | hlow) | hhigh) | rfl) | rfl) | rfl
  · exact Or.inl (Or.inr hdigit)
  · omega
  · omega
  all_goals decide

theorem isGlue_of_isIntBody {c : Char} (hc : isIntBody c = true) : isGlue c = true := by
  simp [isGlue, isIdContinue_of_isIntBody hc]

section
variable {p : Char → Bool} {s s' : List Char}

/-- A run of sticking characters is the same in texts that go on alike. -/
theorem Alike.takeWhile (hp : ∀ c, p c = true → isGlue c = true) (h : Alike true s s') :
    s.takeWhile p = s'.takeWhile p ∧ Alike true (s.dropWhile p) (s'.dropWhile p) := by
  have hblank {b : Char} (hb : isBlank b = true) : p b = false := by
    by_contra hne
    have hglue := hp b (by simpa using hne)
    rw [not_isGlue_of_isBlank hb] at hglue
    exact absurd hglue (by decide)
  generalize hg : true = glued at h
  induction h with
  | nil => exact ⟨rfl, .nil⟩
  | @same _ c s s' h ih =>
      by_cases hc : p c = true
      · obtain ⟨htake, hdrop⟩ := ih (hp c hc).symm
        rw [hp c hc] at hdrop
        subst hg
        simp [hc, htake, hdrop]
      · simp [hc, Alike.same c h]
  | swap => cases hg
  | more hb => simp [hblank hb, Alike.more hb]
  | less hb => simp [hblank hb, Alike.less hb]

/-- So is a run of digits, and a sign may come before it. -/
theorem Alike.digits {glued : Bool} (h : Alike glued s s') :
    s.takeWhile Char.isDigit = s'.takeWhile Char.isDigit ∧
      Alike (glued || !(s.takeWhile Char.isDigit).isEmpty) (s.dropWhile Char.isDigit)
        (s'.dropWhile Char.isDigit) := by
  cases h with
  | nil => exact ⟨rfl, .nil⟩
  | @same _ c s s' h =>
      by_cases hc : c.isDigit = true
      · rw [isGlue_of_isDigit hc] at h
        obtain ⟨htake, hdrop⟩ := h.takeWhile fun d hd => isGlue_of_isDigit hd
        simp [hc, htake, hdrop]
      · simpa [hc] using Alike.same c h
  | @swap c d s s' hc hd =>
      simpa [not_isDigit_of_isIdStart hc, not_isDigit_of_isIdStart hd] using Alike.swap hc hd
  | @more _ b s hb =>
      have hdigit : b.isDigit = false := by
        by_contra hne
        have hglue := isGlue_of_isDigit (by simpa using hne : b.isDigit = true)
        rw [not_isGlue_of_isBlank hb] at hglue
        exact absurd hglue (by decide)
      simpa [hdigit] using Alike.more hb
  | @less _ b s hb =>
      have hdigit : b.isDigit = false := by
        by_contra hne
        have hglue := isGlue_of_isDigit (by simpa using hne : b.isDigit = true)
        rw [not_isGlue_of_isBlank hb] at hglue
        exact absurd hglue (by decide)
      simpa [hdigit] using Alike.less hb

/-- The first character is in a class in both texts or in neither, if no blank and no word
is in it. -/
theorem Alike.head {glued : Bool} {q : Char → Bool} (h : Alike glued s s')
    (hblank : ∀ b, isBlank b = true → q b = false)
    (hword : glued = false → ∀ c, isIdStart c = true → q c = false) :
    s.head?.any q = s'.head?.any q := by
  cases h with
  | nil => rfl
  | same c h => rfl
  | swap hc hd => simp [hword rfl _ hc, hword rfl _ hd]
  | more hb => simp [hblank _ hb]
  | less hb => simp [hblank _ hb]

/-- A text of sticking characters at the front of one is at the front of the other. -/
theorem Alike.exists_append {t : List Char} (ht : ∀ c ∈ t, isGlue c = true)
    (h : Alike true (t ++ s) s') : ∃ more, s' = t ++ more ∧ Alike true s more := by
  induction t generalizing s' with
  | nil => exact ⟨s', rfl, h⟩
  | cons c t ih =>
      obtain ⟨hc, hrest⟩ := List.forall_mem_cons.1 ht
      generalize hg : true = glued at h
      cases h with
      | same _ h =>
          rw [hc] at h
          obtain ⟨more, rfl, hmore⟩ := ih hrest h
          exact ⟨more, rfl, hg ▸ hmore⟩
      | swap => cases hg
      | less hb =>
          rw [not_isGlue_of_isBlank hb] at hc
          exact absurd hc (by decide)

theorem isIdContinue_of_toLower {c : Char} (hc : isIdContinue c.toLower = true) :
    isIdContinue c = true := by
  unfold Char.toLower at hc
  split at hc
  · rename_i hupper
    simp only [ge_iff_le, UInt32.le_iff_toNat_le] at hupper
    simp only [isIdContinue, Char.isAlpha, Char.isUpper, Bool.or_eq_true,
      decide_eq_true_eq, ge_iff_le, UInt32.le_iff_toNat_le]
    exact Or.inl (Or.inl (Or.inl hupper))
  · exact hc

theorem isIdContinue_suffix {suffix : List Char}
    (h : suffix.map Char.toLower ∈ vectorSuffixes) : ∀ c ∈ suffix, isIdContinue c = true := by
  have hall : (vectorSuffixes.all fun s => s.all isIdContinue) = true := by decide
  intro c hc
  have hsuffix := List.all_eq_true.1 hall _ h
  exact isIdContinue_of_toLower (List.all_eq_true.1 hsuffix c.toLower (List.mem_map_of_mem hc))

theorem isGlue_of_isIdContinue {c : Char} (hc : isIdContinue c = true) : isGlue c = true := by
  simp [isGlue, hc]

theorem isGlue_dot_suffix {suffix : List Char}
    (h : suffix.map Char.toLower ∈ vectorSuffixes) : ∀ c ∈ '.' :: suffix, isGlue c = true :=
  List.forall_mem_cons.2
    ⟨by decide, fun c hc => isGlue_of_isIdContinue (isIdContinue_suffix h c hc)⟩

/-- Alike texts behind a sticking character start the same, unless a blank comes. -/
theorem Alike.cons {c : Char} (h : Alike true (c :: s) s') (hc : isBlank c = false) :
    ∃ more, s' = c :: more ∧ Alike (isGlue c) s more := by
  generalize hg : true = glued at h
  cases h with
  | same _ h => exact ⟨_, rfl, h⟩
  | swap => cases hg
  | less hb => rw [hb] at hc; exact absurd hc (by decide)

/-- A whole or a lane of a vector register goes on alike. -/
theorem Alike.arrangement {n : Nat} (h : Alike true s s') (harrangement : Arrangement s n) :
    Arrangement s' n ∧ s.take n = s'.take n := by
  cases harrangement with
  | @whole suffix more hmem hlong =>
      rw [← List.cons_append] at h
      obtain ⟨more', rfl, -⟩ := h.exists_append (isGlue_dot_suffix hmem)
      have hlen : 1 + suffix.length = ('.' :: suffix).length := Nat.add_comm _ _
      exact ⟨.whole hmem hlong, by rw [hlen, ← List.cons_append, List.take_left, List.take_left]⟩
  | @lane suffix digits more hmem hshort hne hdigits =>
      rw [← List.cons_append] at h
      obtain ⟨more', rfl, hmore⟩ := h.exists_append (isGlue_dot_suffix hmem)
      obtain ⟨lane, rfl, hlane⟩ := hmore.cons (by decide)
      obtain ⟨htake, hdrop⟩ := hlane.digits
      have hstop := takeWhile_append_of_stop hdigits
        (show ∀ c ∈ (']' :: more).head?, c.isDigit = false by rintro c ⟨⟩; rfl)
      rw [hstop.1] at htake hdrop
      rw [hstop.2, Bool.or_eq_true_iff.2 (Or.inr (by simpa using hne))] at hdrop
      obtain ⟨last, hlast, -⟩ := hdrop.cons (by decide)
      have hsplit : lane = digits ++ ']' :: last := by
        rw [htake, ← hlast, List.takeWhile_append_dropWhile]
      have htext (more : List Char) : ('.' :: (suffix ++ '[' :: (digits ++ ']' :: more))).take
          (1 + suffix.length + 1 + digits.length + 1) =
            '.' :: (suffix ++ '[' :: (digits ++ [']'])) := by
        rw [show '.' :: (suffix ++ '[' :: (digits ++ ']' :: more)) =
          ('.' :: (suffix ++ '[' :: (digits ++ [']']))) ++ more by simp]
        exact List.take_left' (by simp; omega)
      rw [hsplit]
      exact ⟨.lane hmem hshort hne hdigits, (htext more).trans (htext last).symm⟩

theorem Alike.vectorSuffixLength (h : Alike true s s') (name : List Char) :
    vectorSuffixLength name s = vectorSuffixLength name s' := by
  have hone {s s' : List Char} (h : Alike true s s') {n : Nat}
      (hn : Lexer.vectorSuffixLength name s = some n) :
      Lexer.vectorSuffixLength name s' = some n := by
    obtain ⟨hregister, harrangement⟩ := arrangement_of_vectorSuffixLength hn
    exact vectorSuffixLength_of_arrangement hregister (h.arrangement harrangement).1
  cases hleft : Lexer.vectorSuffixLength name s with
  | some n => exact (hone h hleft).symm
  | none =>
      cases hright : Lexer.vectorSuffixLength name s' with
      | none => rfl
      | some n =>
          rw [hone h.symm hright] at hleft
          cases hleft

theorem isIdContinue_of_isBlank {b : Char} (hb : isBlank b = true) : isIdContinue b = false := by
  have hglue := not_isGlue_of_isBlank hb
  simp only [isGlue, Bool.or_eq_false_iff] at hglue
  exact hglue.1.1

theorem dottedTail_cons {c : Char} (hdot : c ≠ '.') (s : List Char) :
    dottedTail false (c :: s) = if isIdContinue c then dottedTail false s + 1 else 0 := by
  rw [dottedTail]
  exact fun _ _ heq => absurd heq hdot

theorem dottedTail_blank {b : Char} (hb : isBlank b = true) (s : List Char) :
    dottedTail false (b :: s) = 0 := by
  have hdot : b ≠ '.' := by
    rintro rfl
    exact absurd hb (by decide)
  simp [dottedTail_cons hdot, isIdContinue_of_isBlank hb]

theorem dottedTail_dot (s : List Char) :
    dottedTail false ('.' :: s) =
      if s.head?.any isIdContinue then dottedTail true s + 1 else 0 := by
  cases s with
  | nil => rfl
  | cons c s => rfl

theorem Alike.dottedTail {dotted : Bool} (h : Alike true s s')
    (hs : dotted = true → s.head?.any isIdContinue = true) :
    dottedTail dotted s = dottedTail dotted s' ∧
      s.take (dottedTail dotted s) = s'.take (dottedTail dotted s') := by
  generalize hg : true = glued at h
  induction h generalizing dotted with
  | nil => exact ⟨rfl, rfl⟩
  | swap => cases hg
  | more hb =>
      cases dotted with
      | true => exact absurd (hs rfl) (by simp)
      | false => rw [dottedTail_blank hb]; exact ⟨rfl, rfl⟩
  | less hb =>
      cases dotted with
      | true => exact absurd (hs rfl) (by simp [isIdContinue_of_isBlank hb])
      | false => rw [dottedTail_blank hb]; exact ⟨rfl, rfl⟩
  | @same _ c s s' h ih =>
      cases dotted with
      | true =>
          have hc : isIdContinue c = true := by simpa using hs rfl
          obtain ⟨htail, htake⟩ := @ih false (fun h => absurd h Bool.false_ne_true)
            (isGlue_of_isIdContinue hc).symm
          rw [Lexer.dottedTail, Lexer.dottedTail, List.take_succ_cons, List.take_succ_cons, htake,
            htail]
          exact ⟨rfl, rfl⟩
      | false =>
          by_cases hdot : c = '.'
          · subst hdot
            have hglue : isGlue '.' = true := by decide
            rw [hglue] at h
            have hhead := h.head (q := isIdContinue) (fun b hb => isIdContinue_of_isBlank hb)
              fun h => absurd h (by decide)
            rw [dottedTail_dot, dottedTail_dot, ← hhead]
            by_cases hnext : s.head?.any isIdContinue = true
            · obtain ⟨htail, htake⟩ := ih (fun _ => hnext) hglue.symm
              rw [if_pos hnext, if_pos hnext, List.take_succ_cons, List.take_succ_cons, htake,
                htail]
              exact ⟨rfl, rfl⟩
            · rw [if_neg hnext, if_neg hnext]
              exact ⟨rfl, rfl⟩
          · rw [dottedTail_cons hdot, dottedTail_cons hdot]
            by_cases hc : isIdContinue c = true
            · obtain ⟨htail, htake⟩ := @ih false (fun h => absurd h Bool.false_ne_true)
                (isGlue_of_isIdContinue hc).symm
              rw [if_pos hc, if_pos hc, List.take_succ_cons, List.take_succ_cons, htake, htail]
              exact ⟨rfl, rfl⟩
            · rw [if_neg hc, if_neg hc]
              exact ⟨rfl, rfl⟩

theorem Alike.tailLength (h : Alike true s s') (name : List Char) :
    tailLength name s = tailLength name s' ∧
      s.take (tailLength name s) = s'.take (tailLength name s') := by
  have hvector := h.vectorSuffixLength name
  unfold Lexer.tailLength
  rw [← hvector]
  cases hn : Lexer.vectorSuffixLength name s with
  | some n =>
      exact ⟨rfl, (h.arrangement (arrangement_of_vectorSuffixLength hn).2).2⟩
  | none =>
      by_cases hregister : isVectorRegister name = true
      · simp [hregister]
      · simpa [hregister] using @Alike.dottedTail _ _ false h fun h => absurd h Bool.false_ne_true

/-- An identifier is the same in texts that go on alike. -/
theorem Alike.ident {c : Char} (h : Alike true s s') (hc : isIdContinue c = true) :
    identLength (c :: s) = identLength (c :: s') ∧
      (c :: s).take (identLength (c :: s)) = (c :: s').take (identLength (c :: s')) := by
  obtain ⟨htake, hdrop⟩ := h.takeWhile fun d hd => isGlue_of_isIdContinue hd
  obtain ⟨hlength, htext⟩ := hdrop.tailLength (c :: s'.takeWhile isIdContinue)
  have hsplit (s : List Char) (k : Nat) :
      (c :: s).take ((c :: s.takeWhile isIdContinue).length + k) =
        c :: s.takeWhile isIdContinue ++ (s.dropWhile isIdContinue).take k := by
    conv_lhs =>
      arg 2; rw [← List.takeWhile_append_dropWhile (p := isIdContinue) (l := s), ← List.cons_append]
    rw [List.take_length_add_append]
  rw [identLength_eq, identLength_eq]
  simp only [List.takeWhile_cons, List.dropWhile_cons, hc, if_true]
  rw [hsplit, hsplit, htake, hlength, ← hlength, htext, hlength]
  exact ⟨rfl, rfl⟩

end

section
variable {s s' : List Char}

/-- How many digits of a fraction follow. -/
def fractionLength : List Char → Nat
  | '.' :: rest => (rest.takeWhile Char.isDigit).length
  | _ => 0

/-- How far a float goes on past the digits it starts with. -/
def floatTail (rest : List Char) : Nat :=
  1 + fractionLength rest + exponentLength (rest.drop (1 + fractionLength rest))

/-- How far an exponent goes on past the run that ends in its `e`. -/
def signedTail (text : List Char) : List Char → Nat
  | c :: rest =>
      if (text.getLast? = some 'e' ∨ text.getLast? = some 'E') ∧ (c = '+' ∨ c = '-') ∧
          rest.takeWhile Char.isDigit ≠ [] then 1 + (rest.takeWhile Char.isDigit).length
      else 0
  | [] => 0

/-- A float literal of the given text. -/
def floatResult (message : String) (text : List Char) (used line : Nat) :
    Except EmuError (TokenKind × Nat) :=
  match F64.parse text with
  | some bits => .ok (.floatLit bits, used)
  | none => .error (.parseError line (message ++ String.ofList text ++ "`"))

/-- An integer literal of the given text. -/
def integerResult (text : List Char) (line : Nat) : Except EmuError (TokenKind × Nat) :=
  match parseInt text with
  | some value => .ok (.intLit value, text.length)
  | none => .error (.parseError line (integerError text))

/-- The number that goes on with `rest` after its run of digits and letters. -/
def numberResult (text rest : List Char) (line : Nat) : Except EmuError (TokenKind × Nat) :=
  if text.all Char.isDigit = true ∧ fractionLength rest ≠ 0 then
    floatResult "invalid float literal `" (text ++ rest.take (floatTail rest))
      (text.length + floatTail rest) line
  else if isExponential text then
    match F64.parse (text ++ rest.take (signedTail text rest)) with
    | some bits => .ok (.floatLit bits, text.length + signedTail text rest)
    | none => integerResult (text ++ rest.take (signedTail text rest)) line
  else integerResult text line

theorem parseNumber_radix {r : Char} (hr : r = 'r' ∨ r = 'R') (rest : List Char) (line : Nat) :
    parseNumber ('0' :: r :: rest) line =
      floatResult "invalid 0r float literal `" (rest.takeWhile isFloatBody)
        ((rest.takeWhile isFloatBody).length + 2) line := by
  rcases hr with rfl | rfl <;> rfl

/-- The characters of an exponent float whose run of digits and letters is `text`. -/
def signedUsed (text rest : List Char) : Nat :=
  match text.getLast?, rest with
  | some e, c :: rest =>
      if (e = 'e' ∨ e = 'E') ∧ (c = '+' ∨ c = '-') then
        let digits := (rest.takeWhile Char.isDigit).length
        if digits = 0 then text.length else text.length + 1 + digits
      else text.length
  | _, _ => text.length

theorem signedUsed_eq (text rest : List Char) :
    signedUsed text rest = text.length + signedTail text rest := by
  unfold signedUsed
  cases hlast : text.getLast? with
  | none => cases rest <;> simp [signedTail, hlast]
  | some e =>
      cases rest with
      | nil => rfl
      | cons c rest =>
          by_cases hsign : (e = 'e' ∨ e = 'E') ∧ (c = '+' ∨ c = '-')
          · by_cases hdigits : rest.takeWhile Char.isDigit = []
            · simp [signedTail, hlast, hsign, hdigits]
            · simp only [signedTail, hlast, Option.some.injEq, hsign, true_and, ne_eq, hdigits,
                not_false_eq_true, if_true, List.length_eq_zero_iff, if_false]
              omega
          · have hnone : ¬ ((e = 'e' ∨ e = 'E') ∧ (c = '+' ∨ c = '-') ∧
                rest.takeWhile Char.isDigit ≠ []) := fun h => hsign ⟨h.1, h.2.1⟩
            simp only [signedTail, hlast, Option.some.injEq, if_neg hsign, if_neg hnone,
              Nat.add_zero]

theorem parseNumber_eq (hradix : ∀ rest, s ≠ '0' :: 'r' :: rest ∧ s ≠ '0' :: 'R' :: rest)
    (line : Nat) : parseNumber s line =
      numberResult (s.takeWhile isIntBody) (s.dropWhile isIntBody) line := by
  have hsplit : s = s.takeWhile isIntBody ++ s.dropWhile isIntBody :=
    List.takeWhile_append_dropWhile.symm
  unfold parseNumber
  simp only
  split
  · exact absurd rfl (hradix _).1
  · exact absurd rfl (hradix _).2
  · generalize s.takeWhile isIntBody = text at *
    generalize s.dropWhile isIntBody = rest at *
    change (if text.all Char.isDigit = true ∧ fractionLength rest ≠ 0 then
        floatResult "invalid float literal `"
          (s.take (text.length + 1 + fractionLength rest +
            exponentLength (s.drop (text.length + 1 + fractionLength rest))))
          (text.length + 1 + fractionLength rest +
            exponentLength (s.drop (text.length + 1 + fractionLength rest))) line
      else if isExponential text then
        match F64.parse (s.take (signedUsed text rest)) with
        | some bits => .ok (.floatLit bits, signedUsed text rest)
        | none => integerResult (s.take (signedUsed text rest)) line
      else integerResult text line) = _
    subst hsplit
    have hfloat : text.length + 1 + fractionLength rest =
        text.length + (1 + fractionLength rest) := Nat.add_assoc _ _ _
    rw [hfloat, List.drop_length_add_append, Nat.add_assoc text.length, List.take_length_add_append,
      signedUsed_eq, List.take_length_add_append]
    rfl

end

section
variable {s s' : List Char}

theorem drop_takeWhile_length (p : Char → Bool) (s : List Char) :
    s.drop (s.takeWhile p).length = s.dropWhile p := by
  conv_lhs => arg 2; rw [← List.takeWhile_append_dropWhile (p := p) (l := s)]
  rw [List.drop_left]

theorem take_takeWhile_length (p : Char → Bool) (s : List Char) :
    s.take (s.takeWhile p).length = s.takeWhile p :=
  (List.prefix_iff_eq_take.1 (List.takeWhile_prefix p)).symm

theorem isBlank_cases {b : Char} (hb : isBlank b = true) :
    b = '\n' ∨ b = '\r' ∨ b = ' ' ∨ b = '\t' := by
  simpa [isBlank, or_assoc] using hb

theorem fractionLength_of_ne {c : Char} (hc : c ≠ '.') (rest : List Char) :
    fractionLength (c :: rest) = 0 := by
  unfold fractionLength
  split
  · rename_i heq
    exact absurd (List.cons.inj heq).1 hc
  · rfl

def exponentDigits : List Char → List Char
  | c :: rest =>
      if c = '+' ∨ c = '-' then
        if rest.takeWhile Char.isDigit = [] then [] else c :: rest.takeWhile Char.isDigit
      else (c :: rest).takeWhile Char.isDigit
  | [] => []

theorem prefix_exponentDigits (rest : List Char) :
    rest.take (exponentDigits rest).length = exponentDigits rest := by
  cases rest with
  | nil => rfl
  | cons c rest =>
      by_cases hsign : c = '+' ∨ c = '-'
      · by_cases hdigits : rest.takeWhile Char.isDigit = []
        · simp [exponentDigits, hsign, hdigits]
        · simp [exponentDigits, hsign, hdigits, take_takeWhile_length]
      · simp only [exponentDigits, if_neg hsign, take_takeWhile_length]

theorem exponentLength_cons (c : Char) (rest : List Char) :
    exponentLength (c :: rest) =
      if (c = 'e' ∨ c = 'E') ∧ exponentDigits rest ≠ [] then (exponentDigits rest).length + 1
      else 0 := by
  by_cases hc : c = 'e' ∨ c = 'E'
  · cases rest with
    | nil => simp [exponentLength, exponentDigits]
    | cons d rest =>
        by_cases hsign : d = '+' ∨ d = '-'
        · by_cases hdigits : rest.takeWhile Char.isDigit = []
          · simp [exponentLength, exponentDigits, hc, hsign, hdigits]
          · simp only [exponentLength, exponentDigits, hc, hsign, hdigits, if_true, if_false,
              List.drop_succ_cons, List.drop_zero, List.length_eq_zero_iff, ne_eq, true_and,
              reduceCtorEq, not_false_eq_true, List.length_cons]
            omega
        · by_cases hdigits : (d :: rest).takeWhile Char.isDigit = []
          · simp only [exponentLength, exponentDigits, hc, hsign, hdigits, if_true, if_false,
              List.drop_zero, List.length_nil, ne_eq, not_true_eq_false, and_false]
          · simp only [exponentLength, exponentDigits, hc, hsign, hdigits, if_true, if_false,
              List.drop_zero, List.length_eq_zero_iff, ne_eq, not_false_eq_true, and_self]
            omega
  · simp [exponentLength, hc]

theorem Alike.exponentDigits (h : Alike true s s') : exponentDigits s = exponentDigits s' := by
  have hnone {b : Char} (hb : isBlank b = true) (s : List Char) :
      Lexer.exponentDigits (b :: s) = [] := by
    rcases isBlank_cases hb with rfl | rfl | rfl | rfl <;> simp [Lexer.exponentDigits]
  generalize hg : true = glued at h
  cases h with
  | nil => rfl
  | swap => cases hg
  | more hb => exact (hnone hb _).symm
  | less hb => exact hnone hb _
  | @same _ c s s' h =>
      by_cases hsign : c = '+' ∨ c = '-'
      · simp only [Lexer.exponentDigits, if_pos hsign, h.digits.1]
      · have hsame : Alike true (c :: s) (c :: s') := .same c h
        have hall := hsame.digits.1
        simp only [Lexer.exponentDigits, if_neg hsign, hall]

theorem Alike.exponentLength (h : Alike true s s') :
    exponentLength s = exponentLength s' ∧
      s.take (exponentLength s) = s'.take (exponentLength s') := by
  have hzero {b : Char} (hb : isBlank b = true) (s : List Char) :
      Lexer.exponentLength (b :: s) = 0 := by
    rcases isBlank_cases hb with rfl | rfl | rfl | rfl <;> simp [Lexer.exponentLength]
  generalize hg : true = glued at h
  cases h with
  | nil => exact ⟨rfl, rfl⟩
  | swap => cases hg
  | more hb => rw [hzero hb]; exact ⟨rfl, rfl⟩
  | less hb => rw [hzero hb]; exact ⟨rfl, rfl⟩
  | @same _ c s s' h =>
      rw [exponentLength_cons, exponentLength_cons]
      by_cases hc : c = 'e' ∨ c = 'E'
      · have hglue : isGlue c = true := by rcases hc with rfl | rfl <;> decide
        rw [hglue] at h
        have hdigits := h.exponentDigits
        have hprefix := prefix_exponentDigits s'
        rw [hdigits]
        refine ⟨rfl, ?_⟩
        by_cases hnil : Lexer.exponentDigits s' = []
        · simp [hnil]
        · rw [if_pos ⟨hc, hnil⟩, List.take_succ_cons, List.take_succ_cons, hprefix, ← hdigits,
            prefix_exponentDigits]
      · simp [hc]

/-- The fraction and the exponent of a float are the same in texts that go on alike. -/
theorem Alike.floatTail (h : Alike true s s') : fractionLength s = fractionLength s' ∧
    (fractionLength s ≠ 0 → floatTail s = floatTail s' ∧
      s.take (floatTail s) = s'.take (floatTail s')) := by
  have hzero {b : Char} (hb : isBlank b = true) (s : List Char) : fractionLength (b :: s) = 0 :=
    fractionLength_of_ne (by rintro rfl; exact absurd hb (by decide)) s
  generalize hg : true = glued at h
  cases h with
  | nil => exact ⟨rfl, fun _ => ⟨rfl, rfl⟩⟩
  | swap => cases hg
  | more hb => exact ⟨(hzero hb _).symm, fun hne => absurd rfl hne⟩
  | less hb => exact ⟨hzero hb _, fun hne => absurd (hzero hb _) hne⟩
  | @same _ c s s' h =>
      by_cases hdot : c = '.'
      · subst hdot
        have hglue : isGlue '.' = true := by decide
        rw [hglue] at h
        obtain ⟨htake, hdrop⟩ := h.takeWhile fun d hd => isGlue_of_isDigit hd
        obtain ⟨hlength, hexponent⟩ := hdrop.exponentLength
        have hlen (s : List Char) : floatTail ('.' :: s) =
            1 + (s.takeWhile Char.isDigit).length +
              Lexer.exponentLength (s.dropWhile Char.isDigit) := by
          rw [Lexer.floatTail, fractionLength, Nat.add_comm 1, List.drop_succ_cons,
            drop_takeWhile_length]
        have htext (s : List Char) (k : Nat) :
            ('.' :: s).take (1 + (s.takeWhile Char.isDigit).length + k) =
              '.' :: (s.takeWhile Char.isDigit ++ (s.dropWhile Char.isDigit).take k) := by
          rw [Nat.add_assoc, Nat.add_comm, List.take_succ_cons]
          conv_lhs =>
            arg 2; arg 2; rw [← List.takeWhile_append_dropWhile (p := Char.isDigit) (l := s)]
          rw [List.take_length_add_append]
        refine ⟨by simp only [fractionLength, htake], fun _ => ⟨?_, ?_⟩⟩
        · rw [hlen, hlen, htake, hlength]
        · rw [hlen, hlen, htext, htext, htake, hexponent]
      · rw [fractionLength_of_ne hdot, fractionLength_of_ne hdot]
        exact ⟨rfl, fun hne => absurd rfl hne⟩

theorem Alike.signedTail (h : Alike true s s') (text : List Char) :
    signedTail text s = signedTail text s' ∧
      s.take (signedTail text s) = s'.take (signedTail text s') := by
  have hzero {b : Char} (hb : isBlank b = true) (s : List Char) :
      Lexer.signedTail text (b :: s) = 0 := by
    rcases isBlank_cases hb with rfl | rfl | rfl | rfl <;> simp [Lexer.signedTail]
  generalize hg : true = glued at h
  cases h with
  | nil => exact ⟨rfl, rfl⟩
  | swap => cases hg
  | more hb => rw [hzero hb]; exact ⟨rfl, rfl⟩
  | less hb => rw [hzero hb]; exact ⟨rfl, rfl⟩
  | @same _ c s s' h =>
      have hdigits := h.digits.1
      have heq : Lexer.signedTail text (c :: s) = Lexer.signedTail text (c :: s') := by
        simp only [Lexer.signedTail, hdigits]
      refine ⟨heq, ?_⟩
      rw [heq, Lexer.signedTail]
      split
      · rw [Nat.add_comm, List.take_succ_cons, List.take_succ_cons, take_takeWhile_length,
          ← hdigits, take_takeWhile_length]
      · rfl

/-- A number that is read in one of two texts that go on alike is read in the other. -/
theorem Alike.numberResult (h : Alike true s s') (text : List Char) {line line' : Nat}
    {r : TokenKind × Nat} (hr : numberResult text s line = .ok r) :
    numberResult text s' line' = .ok r := by
  obtain ⟨hfraction, hfloat⟩ := h.floatTail
  obtain ⟨hsigned, htake⟩ := h.signedTail text
  have hinteger (text : List Char) (hr : integerResult text line = .ok r) :
      integerResult text line' = .ok r := by
    unfold integerResult at hr ⊢
    cases hparse : parseInt text with
    | some value => rwa [hparse] at hr
    | none => simp [hparse] at hr
  unfold Lexer.numberResult at hr ⊢
  rw [← hfraction]
  by_cases hdecimal : text.all Char.isDigit = true ∧ fractionLength s ≠ 0
  · obtain ⟨htail, htext⟩ := hfloat hdecimal.2
    rw [if_pos hdecimal] at hr ⊢
    rw [← htext, ← htail]
    unfold floatResult at hr ⊢
    cases hparse : F64.parse (text ++ s.take (Lexer.floatTail s)) with
    | some bits => rwa [hparse] at hr
    | none => simp [hparse] at hr
  · rw [if_neg hdecimal] at hr ⊢
    rw [← htake, ← hsigned]
    by_cases hexponential : isExponential text = true
    · rw [if_pos hexponential] at hr ⊢
      cases hparse : F64.parse (text ++ s.take (Lexer.signedTail text s)) with
      | some bits => rwa [hparse] at hr
      | none =>
          rw [hparse] at hr
          exact hinteger _ hr
    · rw [if_neg hexponential] at hr ⊢
      exact hinteger _ hr

end

section Radix

variable {a b : List Char} {sign : Char}

theorem dropWhile_append_cons {p : Char → Bool} (hp : p sign = false) (a b : List Char) :
    (a ++ sign :: b).dropWhile p = a.dropWhile p ++ sign :: b := by
  induction a with
  | nil => simp [hp]
  | cons c a ih =>
      by_cases hc : p c = true
      · simpa [hc] using ih
      · simp [hc]

/-- A sign inside an exponent comes first in it, and a digit follows. -/
theorem readExponent_sign (hsign : sign = '+' ∨ sign = '-') {n : Int}
    (h : F64.readExponent (a ++ sign :: b) = some n) : b.head?.any Char.isDigit = true := by
  have hdigit : sign.isDigit = false := by rcases hsign with rfl | rfl <;> decide
  cases a with
  | nil =>
      have hne : ¬ (sign = 'e' ∨ sign = 'E') := by rcases hsign with rfl | rfl <;> decide
      simp [F64.readExponent, hne] at h
  | cons e a =>
      rw [List.cons_append, F64.readExponent] at h
      by_cases he : e = 'e' ∨ e = 'E'
      · rw [if_pos he] at h
        have hall {digits : List Char} {negative : Bool}
            (htake : F64.takeSign (a ++ sign :: b) = (negative, digits)) :
            digits ≠ [] ∧ ∀ c ∈ digits, c.isDigit = true := by
          simp only [htake] at h
          split at h
          · cases h
          · rename_i hdigits
            simpa using hdigits
        cases a with
        | nil =>
            have htake : ∃ negative, F64.takeSign ([] ++ sign :: b) = (negative, b) := by
              rcases hsign with rfl | rfl
              · exact ⟨false, rfl⟩
              · exact ⟨true, rfl⟩
            obtain ⟨negative, htake⟩ := htake
            obtain ⟨hne, hdigits⟩ := hall htake
            obtain ⟨d, b, rfl⟩ := List.exists_cons_of_ne_nil hne
            simpa using hdigits d List.mem_cons_self
        | cons c a =>
            have hmem : ∀ negative digits, F64.takeSign (c :: a ++ sign :: b) = (negative, digits) →
                sign ∈ digits := by
              intro negative digits htake
              unfold F64.takeSign at htake
              split at htake <;> rename_i heq <;> obtain ⟨-, rfl⟩ := Prod.mk.inj htake
              · obtain ⟨-, rfl⟩ := List.cons.inj heq
                simp
              · obtain ⟨-, rfl⟩ := List.cons.inj heq
                simp
              · simp
            have hbad := (hall rfl).2 sign (hmem _ _ rfl)
            rw [hdigit] at hbad
            exact absurd hbad (by decide)
      · simp [he] at h

/-- The parts of a number that is read: digits, a fraction, and an exponent. -/
theorem of_parse {text : List Char} {bits : BitVec 64} (h : F64.parse text = some bits) :
    ∃ rest exponent n, (F64.takeSign text).2 = rest ∧ F64.readExponent exponent = some n ∧
      ((∃ more, rest.dropWhile Char.isDigit = '.' :: more ∧
          exponent = more.dropWhile Char.isDigit) ∨
        exponent = rest.dropWhile Char.isDigit) ∧
      rest.head?.any (fun d => d.isDigit || d = '.') = true := by
  unfold F64.parse at h
  generalize F64.takeSign text = signed at h
  obtain ⟨negative, rest⟩ := signed
  simp only at h
  have hhead {rest : List Char} (hne : ¬ (rest.takeWhile Char.isDigit).isEmpty = true) :
      rest.head?.any (fun d => d.isDigit || d = '.') = true := by
    cases rest with
    | nil => simp at hne
    | cons c rest =>
        by_cases hc : c.isDigit = true
        · simp [hc]
        · simp [hc] at hne
  cases hdrop : rest.dropWhile Char.isDigit with
  | nil =>
      simp only [hdrop, List.isEmpty_nil, and_true] at h
      by_cases hwhole : (rest.takeWhile Char.isDigit).isEmpty = true
      · simp [hwhole] at h
      · exact ⟨rest, [], 0, rfl, rfl, Or.inr hdrop.symm, hhead hwhole⟩
  | cons c more =>
      by_cases hdot : c = '.'
      · subst hdot
        simp only [hdrop] at h
        split at h
        · cases h
        · rename_i hne
          obtain ⟨n, hn, -⟩ := Option.map_eq_some_iff.1 h
          refine ⟨rest, _, n, rfl, hn, Or.inl ⟨more, hdrop, rfl⟩, ?_⟩
          by_cases hwhole : (rest.takeWhile Char.isDigit).isEmpty = true
          · cases rest with
            | nil => cases hdrop
            | cons d rest =>
                by_cases hd : d.isDigit = true
                · simp [hd]
                · rw [List.dropWhile_cons, if_neg hd] at hdrop
                  obtain ⟨rfl, -⟩ := List.cons.inj hdrop
                  simp
          · exact hhead hwhole
      · rw [hdrop] at h
        split at h
        · rename_i heq
          exact absurd (List.cons.inj heq).1 hdot
        · simp only [List.isEmpty_nil, and_true] at h
          by_cases hwhole : (rest.takeWhile Char.isDigit).isEmpty = true
          · simp [hwhole] at h
          · rw [if_neg hwhole] at h
            obtain ⟨n, hn, -⟩ := Option.map_eq_some_iff.1 h
            exact ⟨rest, c :: more, n, rfl, hn, Or.inr hdrop.symm, hhead hwhole⟩

/-- A sign in a number is followed by a digit or a dot. -/
theorem parse_sign (hsign : sign = '+' ∨ sign = '-') {bits : BitVec 64}
    (h : F64.parse (a ++ sign :: b) = some bits) :
    b.head?.any (fun d => d.isDigit || d = '.') = true := by
  have hdigit : sign.isDigit = false := by rcases hsign with rfl | rfl <;> decide
  have hdot : sign ≠ '.' := by rcases hsign with rfl | rfl <;> decide
  obtain ⟨rest, exponent, n, hrest, hexponent, hwhere, hhead⟩ := of_parse h
  have hinside {a : List Char} (hrest : rest = a ++ sign :: b) :
      b.head?.any Char.isDigit = true := by
    subst hrest
    rw [dropWhile_append_cons hdigit] at hwhere
    rcases hwhere with ⟨more, hmore, rfl⟩ | rfl
    · obtain ⟨more', hmore', rfl⟩ : ∃ a', a.dropWhile Char.isDigit = '.' :: a' ∧
          more = a' ++ sign :: b := by
        cases hdrop : a.dropWhile Char.isDigit with
        | nil =>
            rw [hdrop] at hmore
            exact absurd (List.cons.inj hmore).1 hdot
        | cons c a' =>
            rw [hdrop] at hmore
            obtain ⟨rfl, rfl⟩ := List.cons.inj hmore
            exact ⟨a', rfl, rfl⟩
      rw [dropWhile_append_cons hdigit] at hexponent
      exact readExponent_sign hsign hexponent
    · exact readExponent_sign hsign hexponent
  have hweaken (hb : b.head?.any Char.isDigit = true) :
      b.head?.any (fun d => d.isDigit || d = '.') = true := by
    cases b with
    | nil => simp at hb
    | cons d b => simp_all
  cases a with
  | nil =>
      obtain rfl : b = rest := by
        rw [← hrest]
        rcases hsign with rfl | rfl <;> rfl
      exact hhead
  | cons c a =>
      by_cases hc : c = '-' ∨ c = '+'
      · refine hweaken (@hinside a ?_)
        rw [← hrest]
        rcases hc with rfl | rfl <;> rfl
      · refine hweaken (@hinside (c :: a) ?_)
        rw [← hrest]
        unfold F64.takeSign
        split
        · rename_i heq
          exact absurd (Or.inl (List.cons.inj heq).1) hc
        · rename_i heq
          exact absurd (Or.inr (List.cons.inj heq).1) hc
        · rfl

end Radix

section Next

variable {s s' : List Char} {line line' col col' : Nat}

theorem isGlue_of_isFloatBody {c : Char} (hc : isFloatBody c = true) :
    isGlue c = true ∨ c = '+' ∨ c = '-' := by
  simp only [isFloatBody, Bool.or_eq_true, decide_eq_true_eq] at hc
  rcases hc with ((((hc | rfl) | rfl) | rfl) | rfl) | rfl
  · exact Or.inl (isGlue_of_isDigit hc)
  · exact Or.inl (by decide)
  · exact Or.inl (by decide)
  · exact Or.inl (by decide)
  · exact Or.inr (Or.inl rfl)
  · exact Or.inr (Or.inr rfl)

theorem isFloatBody_of_isBlank {b : Char} (hb : isBlank b = true) : isFloatBody b = false := by
  rcases isBlank_cases hb with rfl | rfl | rfl | rfl <;> decide

theorem ne_dot_of_isIdStart {c : Char} (hc : isIdStart c = true) : c ≠ '.' := by
  rintro rfl
  exact absurd hc (by decide)

/-- The text of a float that reads is the same in texts that go on alike: a word behind a
sign would not read. -/
theorem Alike.floatBody {glued : Bool} (h : Alike glued s s') {before : List Char}
    (hbefore : glued = false → ∃ more sign, before = more ++ [sign] ∧ (sign = '+' ∨ sign = '-'))
    {bits : BitVec 64} (hparse : F64.parse (before ++ s.takeWhile isFloatBody) = some bits) :
    s.takeWhile isFloatBody = s'.takeWhile isFloatBody := by
  induction h generalizing before with
  | nil => rfl
  | more hb => simp [isFloatBody_of_isBlank hb]
  | less hb => simp [isFloatBody_of_isBlank hb]
  | @same _ c s s' h ih =>
      by_cases hc : isFloatBody c = true
      · rw [List.takeWhile_cons, if_pos hc, List.takeWhile_cons, if_pos hc]
        have hnext : isGlue c = false → ∃ more sign, before ++ [c] = more ++ [sign] ∧
            (sign = '+' ∨ sign = '-') := by
          intro hglue
          have hsign := (isGlue_of_isFloatBody hc).resolve_left (by simp [hglue])
          exact ⟨before, c, rfl, hsign⟩
        rw [List.takeWhile_cons, if_pos hc] at hparse
        rw [ih hnext (by simpa using hparse)]
      · rw [List.takeWhile_cons, if_neg hc, List.takeWhile_cons, if_neg hc]
  | @swap c d s s' hc hd =>
      obtain ⟨more, sign, rfl, hsign⟩ := hbefore rfl
      rw [List.append_assoc, List.singleton_append] at hparse
      have hhead := parse_sign hsign hparse
      by_cases hbody : isFloatBody c = true
      · simp [hbody, not_isDigit_of_isIdStart hc, ne_dot_of_isIdStart hc] at hhead
      · simp [hbody] at hhead

/-- A number is read the same in texts that go on alike. -/
theorem Alike.parseNumber {c : Char} (h : Alike true s s') (hc : c.isDigit = true)
    {r : TokenKind × Nat} (hr : parseNumber (c :: s) line = .ok r) :
    parseNumber (c :: s') line' = .ok r := by
  by_cases hradix : c = '0' ∧ (s.head? = some 'r' ∨ s.head? = some 'R')
  · obtain ⟨rfl, hhead⟩ := hradix
    obtain ⟨d, rest, rfl, hd⟩ : ∃ d rest, s = d :: rest ∧ (d = 'r' ∨ d = 'R') := by
      cases s with
      | nil => simp at hhead
      | cons d rest => exact ⟨d, rest, rfl, by simpa using hhead⟩
    have hblank : isBlank d = false := by rcases hd with rfl | rfl <;> decide
    have hglue : isGlue d = true := by rcases hd with rfl | rfl <;> decide
    obtain ⟨rest', rfl, hrest⟩ := h.cons hblank
    rw [hglue] at hrest
    rw [parseNumber_radix hd] at hr ⊢
    unfold floatResult at hr ⊢
    cases hparse : F64.parse (rest.takeWhile isFloatBody) with
    | none => simp [hparse] at hr
    | some bits =>
        have hsame := @Alike.floatBody _ _ _ hrest [] nofun bits (by simpa using hparse)
        rw [← hsame, hparse]
        rwa [hparse] at hr
  · have hplain {s : List Char} (hs : ¬ (c = '0' ∧ (s.head? = some 'r' ∨ s.head? = some 'R')))
        (rest : List Char) : c :: s ≠ '0' :: 'r' :: rest ∧ c :: s ≠ '0' :: 'R' :: rest := by
      constructor <;>
      · intro heq
        obtain ⟨rfl, rfl⟩ := List.cons.inj heq
        exact hs ⟨rfl, by simp⟩
    have hradix' : ¬ (c = '0' ∧ (s'.head? = some 'r' ∨ s'.head? = some 'R')) := by
      have hhead := h.head (q := fun d => d = 'r' || d = 'R')
        (fun b hb => by rcases isBlank_cases hb with rfl | rfl | rfl | rfl <;> decide) nofun
      have hiff (s : List Char) : s.head?.any (fun d => d = 'r' || d = 'R') = true ↔
          s.head? = some 'r' ∨ s.head? = some 'R' := by
        cases s <;> simp
      rw [← hiff] at hradix ⊢
      rwa [← hhead]
    obtain ⟨htake, hdrop⟩ := h.takeWhile fun d hd => isGlue_of_isIntBody hd
    have hbody := isIntBody_of_isDigit hc
    rw [parseNumber_eq (hplain hradix)] at hr
    rw [parseNumber_eq (hplain hradix')]
    simp only [List.takeWhile_cons, List.dropWhile_cons, hbody, if_true] at hr ⊢
    rw [← htake]
    exact hdrop.numberResult _ hr

theorem isIdStart_of_isBlank {b : Char} (hb : isBlank b = true) : isIdStart b = false := by
  rcases isBlank_cases hb with rfl | rfl | rfl | rfl <;> decide

theorem Alike.isPrefixOf {t : List Char} (h : Alike true s s') (ht : ∀ c ∈ t, isGlue c = true) :
    t.isPrefixOf s = t.isPrefixOf s' := by
  have hone {s s' : List Char} (h : Alike true s s') (hs : t.isPrefixOf s = true) :
      t.isPrefixOf s' = true := by
    obtain ⟨more, rfl⟩ := List.isPrefixOf_iff_prefix.1 hs
    obtain ⟨more', rfl, -⟩ := h.exists_append ht
    exact List.isPrefixOf_iff_prefix.2 (List.prefix_append t more')
  exact Bool.eq_iff_iff.2 ⟨hone h, hone h.symm⟩

theorem head_eq_some_iff {c : Char} : s.head? = some c ↔ s.head?.any (fun d => d = c) = true := by
  cases s <;> simp

/-- A token that is no literal is read the same in texts that go on alike behind its first
character. -/
theorem Alike.nextToken {c : Char} (h : Alike (isGlue c) s s')
    (hquote : c ≠ '"' ∧ c ≠ '\'') {r : TokenKind × Nat}
    (hr : nextToken c s line col = .ok r) : nextToken c s' line' col' = .ok r := by
  have hhead {d : Char} (hd : isBlank d = false) (hword : isIdStart d = false) :
      s.head? = some d ↔ s'.head? = some d := by
    rw [head_eq_some_iff, head_eq_some_iff, h.head]
    · intro b hb
      by_contra hne
      obtain rfl : b = d := by simpa using hne
      rw [hb] at hd
      exact absurd hd (by decide)
    · intro _ b hb
      by_contra hne
      obtain rfl : b = d := by simpa using hne
      rw [hb] at hword
      exact absurd hword (by decide)
  by_cases hdigit : c.isDigit = true
  · rw [isGlue_of_isDigit hdigit] at h
    rw [nextToken_digit hdigit] at hr ⊢
    exact h.parseNumber hdigit hr
  · by_cases hstart : isIdStart c = true
    · have hcontinue := isIdContinue_of_isIdStart hstart
      rw [isGlue_of_isIdContinue hcontinue] at h
      obtain ⟨hlength, htext⟩ := h.ident hcontinue
      rw [nextToken_ident hstart] at hr ⊢
      rwa [← htext, ← hlength]
    · by_cases hdot : c = '.'
      · subst hdot
        have hglue : isGlue '.' = true := by decide
        rw [hglue] at h
        obtain ⟨htake, -⟩ := h.takeWhile fun d hd => isGlue_of_isIdContinue hd
        have hword : s.head?.any isIdStart = s'.head?.any isIdStart :=
          h.head (fun b hb => isIdStart_of_isBlank hb) nofun
        have hsized : ∀ d ∈ ["2byte", "4byte", "8byte"],
            d.toList.isPrefixOf s = d.toList.isPrefixOf s' := by
          intro d hd
          have hall : ∀ d ∈ ["2byte", "4byte", "8byte"], d.toList.all isGlue = true := by
            decide
          exact h.isPrefixOf (List.all_eq_true.1 (hall d hd))
        have hstarts : startsDirective s = startsDirective s' := by
          rw [startsDirective, startsDirective, hword]
          congr 1
          rw [Bool.eq_iff_iff, List.any_eq_true, List.any_eq_true]
          exact exists_congr fun d => and_congr_right fun hd => by rw [hsized d hd]
        rw [nextToken_dot] at hr ⊢
        rwa [← hstarts, ← htake]
      · by_cases hat : c = '@' ∧ s.head?.any isIdStart = true
        · obtain ⟨rfl, hword⟩ := hat
          have hglue : isGlue '@' = true := by decide
          rw [hglue] at h
          obtain ⟨htake, -⟩ := h.takeWhile fun d hd => isGlue_of_isIdContinue hd
          have hword' : s'.head?.any isIdStart = true := by
            rw [← h.head (fun b hb => isIdStart_of_isBlank hb) nofun, hword]
          rw [nextToken_at hword] at hr
          rw [nextToken_at hword']
          rwa [← htake]
        · unfold Lexer.nextToken at hr ⊢
          cases hkind : singleChar c with
          | some kind =>
              rw [hkind] at hr
              exact hr
          | none =>
              rw [hkind] at hr
              simp only [hdot, hdigit, hquote, hstart, if_false, Bool.false_eq_true] at hr ⊢
              by_cases hless : c = '<'
              · rw [if_pos hless] at hr ⊢
                split at hr
                · rename_i heq
                  rwa [if_pos ((hhead (by decide) (by decide)).1 heq)]
                · cases hr
              · rw [if_neg hless] at hr ⊢
                by_cases hgreater : c = '>'
                · rw [if_pos hgreater] at hr ⊢
                  split at hr
                  · rename_i heq
                    rwa [if_pos ((hhead (by decide) (by decide)).1 heq)]
                  · cases hr
                · rw [if_neg hgreater, if_neg hat] at hr
                  split at hr <;> cases hr

end Next

end Lexer

end Playground
