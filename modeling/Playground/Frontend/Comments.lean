/-
Comments and literals: what the two comment passes take for quoted text is what the
lexer reads as a literal, so a comment mark inside one is never taken for a comment.
-/
import Playground.Frontend.M4LineMap
import Playground.Frontend.TokenText

namespace Playground

namespace M4

open Lexer

/-- A stretch of the source, as block comments are looked for in it. -/
inductive Stretch
  | newline
  | code (c : Char)
  | quoted (quote : Char) (text : List Char)
  | comment (text : List Char)
  | block (text : List Char)
  | unclosed (text : List Char)
deriving DecidableEq, Repr

def Stretch.text : Stretch → List Char
  | .newline => ['\n']
  | .code c => [c]
  | .quoted quote text => quote :: text
  | .comment text => '/' :: '/' :: text
  | .block text => '/' :: '*' :: (text ++ ['*', '/'])
  | .unclosed text => '/' :: '*' :: text

/-- What is left of a stretch: everything, or the newlines of a block comment. -/
def Stretch.kept : Stretch → List Char
  | .block text => text.filter (· = '\n')
  | .unclosed _ => []
  | s => s.text

/-- Text after an opening quote in which no quote of its kind closes it. -/
inductive Unclosed (q : Char) : List Char → Prop
  | nil : Unclosed q []
  | backslash : Unclosed q ['\\']
  | escape (c : Char) {t : List Char} (ht : Unclosed q t) : Unclosed q ('\\' :: c :: t)
  | char {c : Char} {t : List Char} (hquote : c ≠ q) (hescape : c ≠ '\\') (ht : Unclosed q t) :
      Unclosed q (c :: t)

def EndsLine (s : List Char) : Prop := ∀ c ∈ s.head?, c = '\n'

/-- The stretches of a source.  Quoted text is closed by the first quote of its kind that
no backslash escapes, or by the end of its line; a comment opens outside quoted text and
outside other comments. -/
inductive Reads : List Char → List Stretch → Prop
  | nil : Reads [] []
  | newline {s : List Char} {cs : List Stretch} (h : Reads s cs) :
      Reads ('\n' :: s) (.newline :: cs)
  | code {c : Char} {s : List Char} {cs : List Stretch} (hc : c ≠ '\n' ∧ c ≠ '"' ∧ c ≠ '\'')
      (hslash : c = '/' → s.head? ≠ some '/' ∧ s.head? ≠ some '*') (h : Reads s cs) :
      Reads (c :: s) (.code c :: cs)
  | literal {q : Char} {t s : List Char} {cs : List Stretch} (hq : q = '"' ∨ q = '\'')
      (hclosed : Closed q t) (hline : '\n' ∉ t) (h : Reads s cs) :
      Reads (q :: (t ++ s)) (.quoted q t :: cs)
  | stray {q : Char} {t s : List Char} {cs : List Stretch} (hq : q = '"' ∨ q = '\'')
      (hunclosed : Unclosed q t) (hline : '\n' ∉ t) (hs : EndsLine s) (h : Reads s cs) :
      Reads (q :: (t ++ s)) (.quoted q t :: cs)
  | comment {t s : List Char} {cs : List Stretch} (hline : '\n' ∉ t) (hs : EndsLine s)
      (h : Reads s cs) : Reads ('/' :: '/' :: (t ++ s)) (.comment t :: cs)
  | block {t s : List Char} {cs : List Stretch} (hfirst : ¬ ['*', '/'] <:+: t ++ ['*'])
      (h : Reads s cs) : Reads ('/' :: '*' :: (t ++ '*' :: '/' :: s)) (.block t :: cs)
  | unclosed {t : List Char} (hnone : ¬ ['*', '/'] <:+: t) :
      Reads ('/' :: '*' :: t) [.unclosed t]

theorem Reads.eq_flatMap {s : List Char} {cs : List Stretch} (h : Reads s cs) :
    s = cs.flatMap Stretch.text := by
  induction h <;> simp_all [Stretch.text]

section Existence

/-- After a quote there is text up to the one that closes it, or to the end of the line. -/
theorem exists_quoted (q : Char) (s : List Char) : ∃ t r, s = t ++ r ∧ '\n' ∉ t ∧
    (Closed q t ∨ Unclosed q t ∧ EndsLine r) := by
  induction hn : s.length using Nat.strong_induction_on generalizing s with
  | _ n ih =>
      subst hn
      match s with
      | [] => exact ⟨[], [], rfl, by simp, Or.inr ⟨.nil, by simp [EndsLine]⟩⟩
      | c :: s =>
          by_cases hline : c = '\n'
          · exact ⟨[], c :: s, rfl, by simp, Or.inr ⟨.nil, by simp [EndsLine, hline]⟩⟩
          by_cases hescape : c = '\\'
          · subst hescape
            match s with
            | [] => exact ⟨['\\'], [], rfl, by simp, Or.inr ⟨.backslash, by simp [EndsLine]⟩⟩
            | d :: s =>
                by_cases hend : d = '\n'
                · exact ⟨['\\'], d :: s, rfl, by simp,
                    Or.inr ⟨.backslash, by simp [EndsLine, hend]⟩⟩
                obtain ⟨t, r, rfl, hmem, h⟩ := ih s.length (by simp) s rfl
                refine ⟨'\\' :: d :: t, r, rfl, by simp [hmem, Ne.symm hend], ?_⟩
                exact h.imp (.escape d) fun h => ⟨.escape d h.1, h.2⟩
          by_cases hquote : c = q
          · exact ⟨[q], s, by rw [hquote]; rfl, by simpa [hquote] using Ne.symm hline,
              Or.inl .quote⟩
          obtain ⟨t, r, rfl, hmem, h⟩ := ih s.length (by simp) s rfl
          refine ⟨c :: t, r, rfl, by simp [hmem, Ne.symm hline], ?_⟩
          exact h.imp (.char hquote hescape) fun h => ⟨.char hquote hescape h.1, h.2⟩

/-- A block comment ends at the first `*/` after its opening, or never. -/
theorem exists_block_end (s : List Char) : ¬ ['*', '/'] <:+: s ∨
    ∃ t r, s = t ++ '*' :: '/' :: r ∧ ¬ ['*', '/'] <:+: t ++ ['*'] := by
  induction s with
  | nil => exact Or.inl (by simp)
  | cons c s ih =>
      by_cases hclose : ['*', '/'] <+: c :: s
      · obtain ⟨r, hr⟩ := hclose
        exact Or.inr ⟨[], r, hr.symm, by decide⟩
      · rcases ih with hnone | ⟨t, r, rfl, hfirst⟩
        · refine Or.inl ?_
          rw [List.infix_cons_iff]
          exact not_or.2 ⟨hclose, hnone⟩
        · refine Or.inr ⟨c :: t, r, rfl, ?_⟩
          rw [List.cons_append, List.infix_cons_iff, not_or]
          refine ⟨fun hat => hclose ?_, hfirst⟩
          refine hat.trans ?_
          rw [show c :: (t ++ '*' :: '/' :: r) = c :: (t ++ ['*']) ++ '/' :: r by simp]
          exact List.prefix_append _ _

/-- Every source has stretches. -/
theorem exists_reads (s : List Char) : ∃ cs, Reads s cs := by
  induction hn : s.length using Nat.strong_induction_on generalizing s with
  | _ n ih =>
      subst hn
      match s with
      | [] => exact ⟨[], .nil⟩
      | c :: s =>
          have hrest {t r : List Char} (hs : s = t ++ r) : ∃ cs, Reads r cs :=
            ih r.length (by simp [hs]) r rfl
          by_cases hline : c = '\n'
          · obtain ⟨cs, h⟩ := hrest (t := []) rfl
            rw [hline]
            exact ⟨_, .newline h⟩
          by_cases hq : c = '"' ∨ c = '\''
          · obtain ⟨t, r, rfl, hmem, hend⟩ := exists_quoted c s
            obtain ⟨cs, h⟩ := hrest rfl
            rcases hend with hclosed | ⟨hunclosed, hr⟩
            · exact ⟨_, .literal hq hclosed hmem h⟩
            · exact ⟨_, .stray hq hunclosed hmem hr h⟩
          have hcode (hslash : c = '/' → s.head? ≠ some '/' ∧ s.head? ≠ some '*') :
              ∃ cs, Reads (c :: s) cs := by
            obtain ⟨cs, h⟩ := hrest (t := []) rfl
            exact ⟨_, .code ⟨hline, not_or.1 hq⟩ hslash h⟩
          by_cases hslash : c = '/'
          · subst hslash
            match s with
            | [] => exact hcode (by simp)
            | d :: s =>
                by_cases hcomment : d = '/'
                · subst hcomment
                  have hsplit := List.takeWhile_append_dropWhile (p := (· ≠ '\n')) (l := s)
                  obtain ⟨cs, h⟩ := hrest (t := '/' :: s.takeWhile (· ≠ '\n'))
                    (r := s.dropWhile (· ≠ '\n')) (by rw [List.cons_append, hsplit])
                  rw [← hsplit]
                  refine ⟨_, .comment (fun hmem => ?_) (fun c hc => ?_) h⟩
                  · simpa using List.mem_takeWhile_imp hmem
                  · have hhead := List.head?_dropWhile_not (fun c => decide (c ≠ '\n')) s
                    rw [Option.mem_def.1 hc] at hhead
                    simpa using hhead
                by_cases hblock : d = '*'
                · subst hblock
                  rcases exists_block_end s with hnone | ⟨t, r, rfl, hfirst⟩
                  · exact ⟨_, .unclosed hnone⟩
                  · obtain ⟨cs, h⟩ := hrest (t := '*' :: (t ++ ['*', '/'])) (r := r) (by simp)
                    exact ⟨_, .block hfirst h⟩
                exact hcode (by simp [hcomment, hblock])
          · exact hcode (fun h => absurd h hslash)

end Existence

section Delimited

variable {q : Char} {t u r s : List Char}

/-- Text that nothing closes has no closed text in front. -/
theorem Unclosed.not_closed (hq : q ≠ '\\') (ht : Unclosed q t) (hu : Closed q u) :
    t ≠ u ++ s := by
  induction ht generalizing u with
  | nil => exact fun h => hu.ne_nil (List.append_eq_nil_iff.1 h.symm).1
  | backslash =>
      intro h
      cases hu with
      | quote => exact hq (List.cons.inj h).1.symm
      | escape c hu => simp at h
      | char hquote hescape hu => exact hescape (List.cons.inj h).1.symm
  | escape c ht ih =>
      intro h
      cases hu with
      | quote => exact hq (List.cons.inj h).1.symm
      | escape d hu => exact ih hu (List.cons.inj (List.cons.inj h).2).2
      | char hquote hescape hu => exact hescape (List.cons.inj h).1.symm
  | char hquote hescape ht ih =>
      intro h
      cases hu with
      | quote => exact hquote (List.cons.inj h).1
      | escape d hu => exact hescape (List.cons.inj h).1
      | char hquote' hescape' hu => exact ih hu (List.cons.inj h).2

/-- Quoted text that a literal on its line starts with is that literal. -/
theorem Reads.quoted_eq {cs : List Stretch} (h : Reads (q :: (t ++ s)) (.quoted q t :: cs))
    (hu : Closed q u) (hline : '\n' ∉ u) (hsplit : t ++ s = u ++ r) : t = u := by
  have hne (hq : q = '"' ∨ q = '\'') : q ≠ '\\' := by rcases hq with rfl | rfl <;> decide
  generalize htext : q :: (t ++ s) = text at h
  cases h with
  | literal hq hclosed hline' h =>
      exact hclosed.eq_of_append (hne hq) hu hsplit
  | stray hq hunclosed hline' hs h =>
      obtain ⟨-, hsame⟩ := List.cons.inj htext
      obtain rfl := List.append_cancel_left hsame
      exfalso
      rcases List.append_eq_append_iff.1 hsplit with ⟨v, hu', hv⟩ | ⟨v, ht, -⟩
      · cases v with
        | nil =>
            rw [List.append_nil] at hu'
            exact hunclosed.not_closed (hne hq) hu (s := []) (by rw [hu', List.append_nil])
        | cons c v =>
            have hc : c = '\n' := hs c (by rw [hv]; rfl)
            exact hline (by rw [hu', hc]; simp)
      · exact hunclosed.not_closed (hne hq) hu ht

theorem Reads.quote_cases {cs : List Stretch} (h : Reads (q :: (t ++ s)) (.quoted q t :: cs)) :
    q = '"' ∨ q = '\'' := by
  generalize q :: (t ++ s) = text at h
  cases h with
  | literal hq => exact hq
  | stray hq => exact hq

/-- Where a literal of the lexer starts a quoted text, it is the quoted text. -/
theorem Reads.literal_eq {cs : List Stretch} {line col used : Nat} {kind : TokenKind}
    (h : Reads (q :: (t ++ s)) (.quoted q t :: cs))
    (hread : nextToken q (t ++ s) line col = .ok (kind, used))
    (hline : '\n' ∉ (t ++ s).take (used - 1))
    (hquote : q :: (t ++ s).take (used - 1) ≠ ['\'', '\'', '\'']) : used = t.length + 1 := by
  have hlen {u r : List Char} (hsplit : t ++ s = u ++ r) (hused : used = u.length + 1) :
      (t ++ s).take (used - 1) = u := by
    rw [hsplit, hused, Nat.add_sub_cancel, List.take_left]
  rcases h.quote_cases with rfl | rfl
  · obtain ⟨u, r, hsplit, hused, hclosed, -⟩ := of_nextToken_string hread
    rw [hlen hsplit hused] at hline
    rw [h.quoted_eq hclosed hline hsplit, hused]
  · obtain ⟨u, r, hsplit, hused, hclosed, -⟩ := of_nextToken_char hread
    rw [hlen hsplit hused] at hline hquote
    have hu := hclosed.resolve_left fun heq => hquote (by rw [heq])
    rw [h.quoted_eq hu hline hsplit, hused]

end Delimited

section Blocks

variable {q : Char} {t s : List Char} {cs : List Stretch} {within : Within} {line opened : Nat}

/-- Whether a text's last character escapes the one after it. -/
def endsEscaped : Bool → List Char → Bool
  | escaped, [] => escaped
  | escaped, c :: t => endsEscaped (!escaped && c = '\\') t

/-- The error or the text that a list of stretches leaves, its first one on `line`. -/
def blank : Nat → List Stretch → Except EmuError (List Char)
  | _, [] => .ok []
  | line, .unclosed _ :: _ => .error (.preprocError line unterminatedBlock)
  | line, c :: cs => (blank (line + c.text.count '\n') cs).map (c.kept ++ ·)

theorem map_append_map (a b : List Char) (r : Except EmuError (List Char)) :
    (r.map (b ++ ·)).map (a ++ ·) = r.map ((a ++ b) ++ ·) := by
  cases r <;> simp [Except.map]

theorem map_cons_map (c : Char) (b : List Char) (r : Except EmuError (List Char)) :
    (r.map (b ++ ·)).map (c :: ·) = r.map ((c :: b) ++ ·) := map_append_map [c] b r

theorem map_nil_append (r : Except EmuError (List Char)) : r.map ([] ++ ·) = r := by
  cases r <;> rfl

/-- How the scanner stands inside quoted text. -/
def inQuotes (q : Char) : Within := if q = '"' then .string else .char

/-- One character of quoted text that neither ends it nor escapes. -/
theorem stripBlocksFrom_quoted {c : Char} (hq : q = '"' ∨ q = '\'') (hline : c ≠ '\n')
    (hescape : c ≠ '\\') :
    stripBlocksFrom (inQuotes q) line opened none (c :: s) =
      (stripBlocksFrom (if c = q then .code else inQuotes q) line opened none s).map (c :: ·) := by
  rcases hq with rfl | rfl
  · change stripBlocksFrom .string line opened none (c :: s) = _
    rw [stripBlocksFrom, if_neg hline]
    simp [hescape, inQuotes]
  · change stripBlocksFrom .char line opened none (c :: s) = _
    rw [stripBlocksFrom, if_neg hline]
    simp [hescape, inQuotes]

theorem stripBlocksFrom_escape {c : Char} (hq : q = '"' ∨ q = '\'') :
    stripBlocksFrom (inQuotes q) line opened none ('\\' :: c :: s) =
      (stripBlocksFrom (inQuotes q) line opened none s).map (['\\', c] ++ ·) := by
  have htaken : (stripBlocksFrom (inQuotes q) line opened (some true) (c :: s)).map ('\\' :: ·) =
      (stripBlocksFrom (inQuotes q) line opened none s).map (['\\', c] ++ ·) := by
    rw [stripBlocksFrom]
    exact map_append_map ['\\'] [c] _
  rw [← htaken]
  rcases hq with rfl | rfl <;> rfl

/-- A closed text is copied, and the scanner is back outside quotes. -/
theorem stripBlocksFrom_closed (hq : q = '"' ∨ q = '\'') (hclosed : Closed q t)
    (hline : '\n' ∉ t) : stripBlocksFrom (inQuotes q) line opened none (t ++ s) =
      (stripBlocksFrom .code line opened none s).map (t ++ ·) := by
  induction hclosed with
  | quote =>
      rw [List.singleton_append, stripBlocksFrom_quoted hq]
      · rw [if_pos rfl]
        rfl
      · rcases hq with rfl | rfl <;> decide
      · rcases hq with rfl | rfl <;> decide
  | @escape c t ht ih =>
      rw [List.cons_append, List.cons_append, stripBlocksFrom_escape hq,
        ih (fun hmem => hline (by simp [hmem])), map_append_map]
      rfl
  | @char c t hquote hescape ht ih =>
      have hc : c ≠ '\n' := fun heq => hline (by simp [heq])
      rw [List.cons_append, stripBlocksFrom_quoted hq hc hescape, if_neg hquote,
        ih (fun hmem => hline (by simp [hmem])), map_cons_map]

theorem stripBlocksFrom_endsLine (hs : EndsLine s) (hwithin : within ≠ .block) :
    stripBlocksFrom within line opened none s = stripBlocksFrom .code line opened none s := by
  cases s with
  | nil => simp [stripBlocksFrom, hwithin]
  | cons c s =>
      obtain rfl : c = '\n' := hs c rfl
      cases within with
      | block => exact absurd rfl hwithin
      | _ => rfl

theorem inQuotes_ne_block (q : Char) : inQuotes q ≠ .block := by
  unfold inQuotes
  split <;> decide

/-- Quoted text that runs to the end of its line is copied. -/
theorem stripBlocksFrom_stray (hq : q = '"' ∨ q = '\'') (hunclosed : Unclosed q t)
    (hline : '\n' ∉ t) (hs : EndsLine s) (hends : endsEscaped false t = true → s = []) :
    stripBlocksFrom (inQuotes q) line opened none (t ++ s) =
      (stripBlocksFrom .code line opened none s).map (t ++ ·) := by
  induction hunclosed with
  | nil =>
      rw [List.nil_append, stripBlocksFrom_endsLine hs (inQuotes_ne_block q), map_nil_append]
  | backslash =>
      obtain rfl := hends (by decide)
      rcases hq with rfl | rfl <;> rfl
  | @escape c t ht ih =>
      rw [List.cons_append, List.cons_append, stripBlocksFrom_escape hq,
        ih (fun hmem => hline (by simp [hmem])) hends, map_append_map]
      rfl
  | @char c t hquote hescape ht ih =>
      have hc : c ≠ '\n' := fun heq => hline (by simp [heq])
      have hends' : endsEscaped false t = true → s = [] := by
        simpa [endsEscaped, hescape] using hends
      rw [List.cons_append, stripBlocksFrom_quoted hq hc hescape, if_neg hquote,
        ih (fun hmem => hline (by simp [hmem])) hends', map_cons_map]

theorem stripBlocksFrom_comment (hline : '\n' ∉ t) (hs : EndsLine s) :
    stripBlocksFrom .comment line opened none (t ++ s) =
      (stripBlocksFrom .code line opened none s).map (t ++ ·) := by
  induction t with
  | nil => rw [List.nil_append, stripBlocksFrom_endsLine hs (by decide), map_nil_append]
  | cons c t ih =>
      have hc : c ≠ '\n' := fun heq => hline (by simp [heq])
      rw [List.cons_append, stripBlocksFrom, if_neg hc]
      change (stripBlocksFrom .comment line opened none (t ++ s)).map (c :: ·) = _
      rw [ih (fun hmem => hline (by simp [hmem])), map_cons_map]

/-- Inside a block comment only the newlines are kept, and they count. -/
theorem stripBlocksFrom_block (hfirst : ¬ ['*', '/'] <:+: t ++ ['*']) :
    stripBlocksFrom .block line opened none (t ++ '*' :: '/' :: s) =
      (stripBlocksFrom .code (line + t.count '\n') opened none s).map
        (t.filter (· = '\n') ++ ·) := by
  induction t generalizing line with
  | nil => exact (map_nil_append _).symm
  | cons c t ih =>
      rw [List.cons_append, List.infix_cons_iff, not_or] at hfirst
      rw [List.cons_append, stripBlocksFrom]
      by_cases hline : c = '\n'
      · have hcount : line + 1 + t.count '\n' = line + (t.count '\n' + 1) := by omega
        rw [if_pos hline, if_pos rfl, ih hfirst.2, map_cons_map, hline, List.count_cons_self,
          hcount]
        rfl
      · have hopen : ¬ (c = '*' ∧ (t ++ '*' :: '/' :: s).head? = some '/') := by
          rintro ⟨rfl, hhead⟩
          cases t with
          | nil => simp at hhead
          | cons d t =>
              obtain rfl : d = '/' := by simpa using hhead
              exact hfirst.1 (by simp)
        rw [if_neg hline]
        change (if c = '*' ∧ (t ++ '*' :: '/' :: s).head? = some '/' then _ else
          stripBlocksFrom .block line opened none (t ++ '*' :: '/' :: s)) = _
        rw [if_neg hopen, ih hfirst.2, List.count_cons_of_ne hline]
        simp [hline]

theorem stripBlocksFrom_unclosed (hnone : ¬ ['*', '/'] <:+: t) :
    stripBlocksFrom .block line opened none t =
      .error (.preprocError opened unterminatedBlock) := by
  induction t generalizing line with
  | nil => rfl
  | cons c t ih =>
      rw [List.infix_cons_iff, not_or] at hnone
      rw [stripBlocksFrom]
      by_cases hline : c = '\n'
      · rw [if_pos hline, if_pos rfl, ih hnone.2]
        rfl
      · have hopen : ¬ (c = '*' ∧ t.head? = some '/') := by
          rintro ⟨rfl, hhead⟩
          cases t with
          | nil => simp at hhead
          | cons d t =>
              obtain rfl : d = '/' := by simpa using hhead
              exact hnone.1 (by simp)
        rw [if_neg hline]
        change (if c = '*' ∧ t.head? = some '/' then _ else
          stripBlocksFrom .block line opened none t) = _
        rw [if_neg hopen, ih hnone.2]

/-- Whether a stretch is quoted text whose end would escape what follows it. -/
def Stretch.escapes : Stretch → Bool
  | .quoted _ text => endsEscaped false text
  | _ => false

def NoEscapedNewline (cs : List Stretch) : Prop :=
  cs.IsChain fun a b => ¬ (a.escapes = true ∧ b = .newline)

theorem stripBlocksFrom_quote (hq : q = '"' ∨ q = '\'') :
    stripBlocksFrom .code line opened none (q :: s) =
      (stripBlocksFrom (inQuotes q) line opened none s).map (q :: ·) := by
  rcases hq with rfl | rfl <;> rfl

theorem blank_quoted : blank line (.quoted q t :: cs) =
    (blank (line + (q :: t).count '\n') cs).map (q :: t ++ ·) := rfl

/-- The scanner leaves what the stretches of the source leave. -/
theorem Reads.stripBlocksFrom_eq (h : Reads s cs) (hescaped : NoEscapedNewline cs) :
    stripBlocksFrom .code line opened none s = blank line cs := by
  induction h generalizing line opened with
  | nil => rfl
  | newline h ih =>
      rw [stripBlocksFrom, if_pos rfl, if_neg (by decide), ih hescaped.tail]
      rfl
  | @code c s cs hc hslash h ih =>
      have hcomment : ¬ (c = '/' ∧ s.head? = some '/') := fun h => (hslash h.1).1 h.2
      have hblock : ¬ (c = '/' ∧ s.head? = some '*') := fun h => (hslash h.1).2 h.2
      have hcount : [c].count '\n' = 0 := List.count_eq_zero.2 (by simpa using Ne.symm hc.1)
      rw [stripBlocksFrom, if_neg hc.1]
      change (if c = '/' ∧ s.head? = some '/' then _ else if c = '/' ∧ s.head? = some '*' then _
        else (stripBlocksFrom (if c = '"' then .string else if c = '\'' then .char else .code)
          line opened none s).map (c :: ·)) = _
      rw [if_neg hcomment, if_neg hblock, if_neg hc.2.1, if_neg hc.2.2, ih hescaped.tail]
      change _ = (blank (line + [c].count '\n') cs).map ([c] ++ ·)
      rw [hcount]
      rfl
  | @literal q t s cs hq hclosed hline h ih =>
      have hcount : (q :: t).count '\n' = 0 := by
        rw [List.count_eq_zero]
        rcases hq with rfl | rfl <;> simp [hline]
      rw [stripBlocksFrom_quote hq, stripBlocksFrom_closed hq hclosed hline, map_cons_map,
        ih hescaped.tail, blank_quoted, hcount]
      rfl
  | @stray q t s cs hq hunclosed hline hs h ih =>
      have hcount : (q :: t).count '\n' = 0 := by
        rw [List.count_eq_zero]
        rcases hq with rfl | rfl <;> simp [hline]
      have hends : endsEscaped false t = true → s = [] := by
        intro hends
        cases h with
        | nil => rfl
        | newline h => exact absurd ⟨hends, rfl⟩ (List.isChain_cons_cons.1 hescaped).1
        | code hc => exact absurd (hs _ rfl) hc.1
        | literal hq => rcases hq with rfl | rfl <;> exact absurd (hs _ rfl) (by decide)
        | stray hq => rcases hq with rfl | rfl <;> exact absurd (hs _ rfl) (by decide)
        | comment => exact absurd (hs _ rfl) (by decide)
        | block => exact absurd (hs _ rfl) (by decide)
        | unclosed => exact absurd (hs _ rfl) (by decide)
      rw [stripBlocksFrom_quote hq, stripBlocksFrom_stray hq hunclosed hline hs hends,
        map_cons_map, ih hescaped.tail, blank_quoted, hcount]
      rfl
  | @comment t s cs hline hs h ih =>
      have hcount : ('/' :: '/' :: t).count '\n' = 0 := by
        rw [List.count_eq_zero]
        simp [hline]
      have hopen : stripBlocksFrom .code line opened none ('/' :: '/' :: (t ++ s)) =
          (stripBlocksFrom .comment line opened none ('/' :: t ++ s)).map ('/' :: ·) := rfl
      have hline' : '\n' ∉ '/' :: t := by simp [hline]
      rw [hopen, stripBlocksFrom_comment hline' hs, map_cons_map, ih hescaped.tail]
      change _ = (blank (line + ('/' :: '/' :: t).count '\n') cs).map _
      rw [hcount]
      rfl
  | @block t s cs hfirst h ih =>
      have hopen : stripBlocksFrom .code line opened none ('/' :: '*' :: (t ++ '*' :: '/' :: s)) =
          stripBlocksFrom .block line line none (t ++ '*' :: '/' :: s) := rfl
      have hcount : (Stretch.block t).text.count '\n' = t.count '\n' := by
        simp [Stretch.text]
      rw [hopen, stripBlocksFrom_block hfirst, ih hescaped.tail]
      change _ = (blank (line + (Stretch.block t).text.count '\n') cs).map _
      rw [hcount]
      rfl
  | @unclosed t hnone =>
      have hopen : stripBlocksFrom .code line opened none ('/' :: '*' :: t) =
          stripBlocksFrom .block line line none t := rfl
      rw [hopen, stripBlocksFrom_unclosed hnone]
      rfl

theorem blank_cons {c : Stretch} (hc : ∀ t, c ≠ .unclosed t) :
    blank line (c :: cs) = (blank (line + c.text.count '\n') cs).map (c.kept ++ ·) := by
  cases c with
  | unclosed t => exact absurd rfl (hc t)
  | _ => rfl

theorem blank_eq_kept (hclosed : ∀ t, .unclosed t ∉ cs) :
    blank line cs = .ok (cs.flatMap Stretch.kept) := by
  induction cs generalizing line with
  | nil => rfl
  | cons c cs ih =>
      have hc : ∀ t, c ≠ .unclosed t := by
        rintro t rfl
        exact hclosed t List.mem_cons_self
      rw [blank_cons hc, ih fun t hmem => hclosed t (List.mem_cons_of_mem c hmem)]
      rfl

theorem blank_unclosed (hclosed : ∀ t, .unclosed t ∉ cs) (t : List Char) :
    blank line (cs ++ [.unclosed t]) =
      .error (.preprocError (line + (cs.flatMap Stretch.text).count '\n') unterminatedBlock) := by
  induction cs generalizing line with
  | nil => rfl
  | cons c cs ih =>
      have hc : ∀ t, c ≠ .unclosed t := by
        rintro t rfl
        exact hclosed t List.mem_cons_self
      rw [List.cons_append, blank_cons hc, ih fun t hmem => hclosed t (List.mem_cons_of_mem c hmem),
        List.flatMap_cons, List.count_append, ← Nat.add_assoc]
      rfl

end Blocks

section Line

/-- The stretches a lexeme of a line is read as: a literal is quoted text. -/
def stretches : Lexeme → List Stretch
  | .blank b => [.code b]
  | .token _ (c :: text) =>
      if c = '"' ∨ c = '\'' then [.quoted c text] else (c :: text).map .code
  | .token _ [] => []

/-- No comment opens: no slash stands before another slash or a star. -/
def CommentFree (ls : List Lexeme) : Prop :=
  ls.IsChain fun a b => ¬ (a = .token .slash ['/'] ∧
    (b = .token .slash ['/'] ∨ b = .token .star ['*']))

/-- The character literal of a quote, which stands between two others. -/
def quoteLiteral : List Char := ['\'', '\'', '\'']

/-- Text in which nothing is a comment. -/
inductive Content : List Char → List Stretch → Prop
  | nil : Content [] []
  | code {c : Char} {s : List Char} {cs : List Stretch}
      (hc : c ≠ '\n' ∧ c ≠ '"' ∧ c ≠ '\'' ∧ c ≠ ';')
      (hslash : c = '/' → s.head? ≠ some '/' ∧ s.head? ≠ some '*') (h : Content s cs) :
      Content (c :: s) (.code c :: cs)
  | literal {q : Char} {t s : List Char} {cs : List Stretch} (hq : q = '"' ∨ q = '\'')
      (hclosed : Closed q t) (hline : '\n' ∉ t) (h : Content s cs) :
      Content (q :: (t ++ s)) (.quoted q t :: cs)

variable {s : List Char} {cs : List Stretch} {ls : List Lexeme}

theorem Content.reads (h : Content s cs) : Reads s cs := by
  induction h with
  | nil => exact .nil
  | code hc hslash h ih => exact .code ⟨hc.1, hc.2.1, hc.2.2.1⟩ hslash ih
  | literal hq hclosed hline h ih => exact .literal hq hclosed hline ih

/-- Characters inside a token that is no literal are code. -/
theorem Content.append_plain {text : List Char} (h : Content s cs)
    (hplain : ∀ d ∈ text, isPlain d = true) : Content (text ++ s) (text.map .code ++ cs) := by
  induction text with
  | nil => exact h
  | cons d text ih =>
      obtain ⟨hd, hrest⟩ := List.forall_mem_cons.1 hplain
      have hne {c : Char} (hc : isPlain c = false) : d ≠ c := by
        rintro rfl
        rw [hd] at hc
        cases hc
      refine .code ⟨hne (by decide), hne (by decide), hne (by decide), hne (by decide)⟩ ?_
        (ih hrest)
      exact fun hslash => absurd hslash (hne (by decide))

theorem nextToken_slash (s : List Char) (line col : Nat) :
    nextToken '/' s line col = .ok (.slash, 1) := rfl

theorem nextToken_star (s : List Char) (line col : Nat) :
    nextToken '*' s line col = .ok (.star, 1) := rfl

/-- A text that starts with a mark of one character has that mark for its first lexeme. -/
theorem head_of_lexes {c : Char} {kind : TokenKind} (hblank : isBlank c = false)
    (hmark : ∀ s line col, nextToken c s line col = .ok (kind, 1)) (h : Lexes s ls)
    (hc : s.head? = some c) : ls.head? = some (.token kind [c]) := by
  cases h with
  | nil => cases hc
  | blank hb h =>
      obtain rfl := Option.some.inj hc
      rw [hb] at hblank
      cases hblank
  | @token d text s ls kind' line col hd hread h =>
      obtain rfl := Option.some.inj hc
      rw [hmark] at hread
      obtain ⟨rfl, hlen⟩ := Prod.mk.inj (Except.ok.inj hread)
      obtain rfl : text = [] := List.eq_nil_of_length_eq_zero (by omega)
      rfl

/-- The lexer's literals are the quoted texts of a line without comments. -/
theorem content_of_lexes (h : Lexes s ls) (hfree : CommentFree ls)
    (hquote : ∀ l ∈ ls, l.text ≠ quoteLiteral) (hline : '\n' ∉ s) :
    Content s (ls.flatMap stretches) := by
  induction h with
  | nil => exact .nil
  | @blank b s ls hb h ih =>
      obtain ⟨hb', hline'⟩ := not_or.1 (mt List.mem_cons.2 hline)
      have hrest := ih hfree.tail (fun l hl => hquote l (List.mem_cons_of_mem _ hl)) hline'
      refine .code ⟨Ne.symm hb', ?_⟩ ?_ hrest
      · rcases isBlank_cases hb with rfl | rfl | rfl | rfl <;> decide
      · rintro rfl
        exact absurd hb (by decide)
  | @token c text s ls kind line col hc hread h ih =>
      have hmem : '\n' ∉ text ∧ '\n' ∉ s := by
        rw [List.mem_cons, List.mem_append, not_or, not_or] at hline
        exact hline.2
      have hrest := ih hfree.tail (fun l hl => hquote l (List.mem_cons_of_mem _ hl)) hmem.2
      have htext : c :: text ≠ quoteLiteral := hquote _ List.mem_cons_self
      by_cases hq : c = '"' ∨ c = '\''
      · have hstretches : stretches (.token kind (c :: text)) = [.quoted c text] := if_pos hq
        rw [List.flatMap_cons, hstretches]
        refine .literal hq ?_ hmem.1 hrest
        have hsame {t r : List Char} (hsplit : text ++ s = t ++ r)
            (hlen : text.length + 1 = t.length + 1) : t = text :=
          (List.append_inj_left hsplit (by omega)).symm
        rcases hq with rfl | rfl
        · obtain ⟨t, r, hsplit, hlen, hclosed, -⟩ := of_nextToken_string hread
          rwa [hsame hsplit hlen] at hclosed
        · obtain ⟨t, r, hsplit, hlen, hclosed, -⟩ := of_nextToken_char hread
          rw [hsame hsplit hlen] at hclosed
          exact hclosed.resolve_left fun heq => htext (by rw [heq]; rfl)
      · obtain ⟨-, -, hplain, hsemi⟩ := nextToken_isPlain (not_or.1 hq) hread
        have hstretches : stretches (.token kind (c :: text)) = (c :: text).map .code := if_neg hq
        rw [Nat.add_sub_cancel, List.take_left] at hplain
        rw [List.flatMap_cons, hstretches, List.map_cons, List.cons_append]
        have hnewline : c ≠ '\n' := by
          rintro rfl
          exact absurd hc (by decide)
        refine .code ⟨hnewline, (not_or.1 hq).1, (not_or.1 hq).2, hsemi⟩ ?_
          (hrest.append_plain hplain)
        rintro rfl
        obtain ⟨rfl, hlen⟩ := Prod.mk.inj (Except.ok.inj hread)
        obtain rfl : text = [] := List.eq_nil_of_length_eq_zero (by omega)
        have hnext (l : Lexeme) (hl : ls.head? = some l) :
            ¬ (l = .token .slash ['/'] ∨ l = .token .star ['*']) := by
          cases ls with
          | nil => cases hl
          | cons l' ls =>
              obtain rfl := Option.some.inj hl
              exact fun hmark => (List.isChain_cons_cons.1 hfree).1 ⟨rfl, hmark⟩
        constructor
        · intro hhead
          exact hnext _ (head_of_lexes (by decide) nextToken_slash h hhead) (Or.inl rfl)
        · intro hhead
          exact hnext _ (head_of_lexes (by decide) nextToken_star h hhead) (Or.inr rfl)

/-- A line comment is looked for again only behind a closed text. -/
theorem stripCommentFrom_closed {q : Char} {t : List Char} (hq : q = '"' ∨ q = '\'')
    (hclosed : Closed q t) (rest : List Char) :
    Operands.stripCommentFrom (q = '"') (q = '\'') false (t ++ rest) =
      t ++ stripComment rest := by
  induction hclosed with
  | quote => rcases hq with rfl | rfl <;> rfl
  | @escape c t ht ih =>
      rw [List.cons_append, List.cons_append, List.cons_append, List.cons_append, ← ih]
      rcases hq with rfl | rfl <;> rfl
  | @char c t hquote hescape ht ih =>
      rw [List.cons_append, List.cons_append, ← ih]
      rcases hq with rfl | rfl
      · simp [Operands.stripCommentFrom, hescape, hquote]
      · simp [Operands.stripCommentFrom, hescape, hquote]

/-- Text without comments is kept, and a comment is looked for behind it. -/
theorem Content.stripComment_append (h : Content s cs) {rest : List Char}
    (hrest : rest.head? ≠ some '/') : stripComment (s ++ rest) = s ++ stripComment rest := by
  induction h with
  | nil => rfl
  | @code c s cs hc hslash h ih =>
      have hopen : ¬ (c = '/' ∧ (s ++ rest).head? = some '/') := by
        rintro ⟨rfl, hhead⟩
        cases s with
        | nil => exact hrest hhead
        | cons d s => exact (hslash rfl).1 hhead
      have hbackslash : ¬ (c = '\\' ∧ (false || false) = true) := by simp
      rw [List.cons_append, List.cons_append, ← ih, stripComment, Operands.stripCommentFrom,
        if_neg Bool.false_ne_true, if_neg hbackslash, if_neg Bool.false_ne_true,
        if_neg Bool.false_ne_true, if_neg hc.2.1, if_neg hc.2.2.1, if_neg hopen, if_neg hc.2.2.2]
      rfl
  | @literal q t s cs hq hclosed hline h ih =>
      have hopen : stripComment (q :: (t ++ s) ++ rest) =
          q :: Operands.stripCommentFrom (q = '"') (q = '\'') false (t ++ (s ++ rest)) := by
        rw [List.cons_append, List.append_assoc]
        rcases hq with rfl | rfl <;> rfl
      rw [hopen, stripCommentFrom_closed hq hclosed, ih]
      simp

/-- A line comment behind text that holds none goes, up to the blank before it. -/
theorem Content.stripComment_mark (h : Content s cs) {mark : List Char}
    (hmark : mark = ['/', '/'] ∨ mark = [';']) (comment : List Char) :
    stripComment (s ++ ' ' :: (mark ++ comment)) = s ++ [' '] := by
  rw [h.stripComment_append (by simp)]
  rcases hmark with rfl | rfl <;> rfl

end Line

/-- Comment stripping leaves literals alone.  A line that lexes has lexemes, and if no
comment opens in it, then its literals are its quoted texts and a comment behind it is
stripped without a change to its tokens.  A source has stretches: a literal that the lexer
reads where a quoted text starts is that text, the block comments that open outside quoted
text and outside line comments go, and nothing else; one that is never closed is an error
at the line it opens on; and no newline goes. -/
theorem comments_stripped :
    (∀ (line : List Char) (n : Nat) (tokens : List Token), '\n' ∉ line →
      lexFrom 0 line n 1 = .ok tokens →
      (∃ ls, Lexes line ls) ∧ ∀ ls, Lexes line ls → tokens = place ls n 1 ∧
        (CommentFree ls → (∀ l ∈ ls, l.text ≠ quoteLiteral) →
          Reads line (ls.flatMap stretches) ∧
          ∀ mark comment, mark = ['/', '/'] ∨ mark = [';'] →
            lexFrom 0 (stripComment (line ++ ' ' :: (mark ++ ' ' :: comment))) n 1 =
              .ok tokens)) ∧
    (∀ (q : Char) (t s : List Char) (cs : List Stretch) (line col used : Nat) (kind : TokenKind),
      Reads (q :: (t ++ s)) (.quoted q t :: cs) →
      nextToken q (t ++ s) line col = .ok (kind, used) →
      '\n' ∉ (t ++ s).take (used - 1) → q :: (t ++ s).take (used - 1) ≠ quoteLiteral →
        used = t.length + 1) ∧
    ∀ source : List Char, (∃ cs, Reads source cs) ∧
      (∀ cs, Reads source cs → NoEscapedNewline cs →
        ((∀ t, .unclosed t ∉ cs) →
          stripBlockComments source = .ok (cs.flatMap Stretch.kept)) ∧
        ∀ before t, (∀ t, .unclosed t ∉ before) → cs = before ++ [.unclosed t] →
          stripBlockComments source = .error (.preprocError
            (1 + (before.flatMap Stretch.text).count '\n') unterminatedBlock)) ∧
      ∀ out, stripBlockComments source = .ok out → out.count '\n' = source.count '\n' := by
  refine ⟨?_, fun q t s cs line col used kind h hread hline hquote =>
    h.literal_eq hread hline hquote, ?_⟩
  · intro line n tokens hline hlex
    obtain ⟨ls, hls, -⟩ := exists_lexes hlex
    refine ⟨⟨ls, hls⟩, fun ls hls => ?_⟩
    have htokens : tokens = place ls n 1 := Except.ok.inj (hlex.symm.trans hls.lexFrom_eq)
    refine ⟨htokens, fun hfree hquote => ?_⟩
    have hcontent := content_of_lexes hls hfree hquote hline
    refine ⟨hcontent.reads, fun mark comment hmark => ?_⟩
    rw [hcontent.stripComment_mark hmark, (hls.append_blank (by decide)).lexFrom_eq,
      place_append_blank (by decide), htokens]
  · intro source
    refine ⟨exists_reads source, fun cs hreads hescaped => ⟨fun hclosed => ?_, ?_⟩, ?_⟩
    · rw [stripBlockComments, hreads.stripBlocksFrom_eq hescaped, blank_eq_kept hclosed]
    · rintro before t hclosed rfl
      rw [stripBlockComments, hreads.stripBlocksFrom_eq hescaped, blank_unclosed hclosed t]
    · intro out hout
      exact (stripBlocksFrom_newlines (by simp) hout).1

theorem comments_stripped_semicolon :
    lexFrom 0 (stripComment "';' // it's".toList) 1 1 = .ok [⟨.charLit 59, 1, 1⟩] ∧
      stripBlockComments "';'/*\n*/".toList = .ok "';'\n".toList := by
  constructor
  · have hlexes : Lexes ('\'' :: (";'".toList ++ [])) [.token (.charLit 59) "';'".toList] :=
      .token (by decide)
        (show nextToken '\'' (";'".toList ++ []) 1 1 = .ok (.charLit 59, 3) by decide) .nil
    have hlex : lexFrom 0 "';'".toList 1 1 = .ok [⟨.charLit 59, 1, 1⟩] := by decide
    exact (((comments_stripped.1 _ 1 _ (by decide) hlex).2 _ hlexes).2 (by simp [CommentFree])
      (by simp [Lexeme.text, quoteLiteral])).2 ['/', '/'] "it's".toList (Or.inl rfl)
  · have hreads : Reads "';'/*\n*/".toList [.quoted '\'' ";'".toList, .block ['\n']] :=
      .literal (t := ";'".toList) (Or.inr rfl) (.char (by decide) (by decide) .quote) (by decide)
        (.block (t := ['\n']) (by decide) .nil)
    exact ((comments_stripped.2.2 _).2.1 _ hreads (by simp [NoEscapedNewline, Stretch.escapes])).1
      (by simp)

/-- A block comment that opens in a line comment is left there, closed or not. -/
theorem block_in_comment_kept :
    ¬ ∀ before t : List Char, '"' ∉ before → '\'' ∉ before → ¬ ['/', '*'] <:+: before →
      ¬ ['*', '/'] <:+: t → stripBlockComments (before ++ '/' :: '*' :: t) =
        .error (.preprocError (1 + before.count '\n') unterminatedBlock) := by
  intro h
  have hopen := h "// ".toList [] (by decide) (by decide) (by decide) (by decide)
  exact absurd hopen (by decide)

end M4

end Playground
