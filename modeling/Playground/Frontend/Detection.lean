/-
Which of the two assemblers a program goes through: the hosted one, when the text before the
`//` or `;` of some line holds the spelling of a directive, of a define or of a library call.
-/
import Playground.Assembler.Operands
import Playground.Library.Lines
import Playground.Library.Words

namespace Playground

namespace Detection

open Assembler (toLowercase lowerChar lowerAsciiChars)
open Words

def hostedLibcNames : List String :=
  [ -- console and formatted output
    "printf", "scanf", "__isoc99_scanf", "sprintf", "snprintf", "puts", "putchar", "getchar",
    -- strings
    "strlen", "strcmp", "strncmp", "strcpy", "strncpy", "strcat", "strchr",
    "strstr", "strtok", "memset", "memcpy", "memmove", "memcmp",
    -- conversion and process control
    "atof", "atoi", "strtol", "abs", "labs", "exit", "rand", "srand", "time",
    -- heap and pacing
    "malloc", "calloc", "realloc", "free", "usleep", "fflush",
    -- character classes
    "isdigit", "isalpha", "isspace", "toupper", "tolower", "__ctype_b_loc",
    "__ctype_toupper_loc", "__ctype_tolower_loc",
    -- FILE*-level stdio
    "fopen", "fprintf", "fgets", "fputs", "fclose", "putc", "fputc", "getc",
    "fwrite",
    -- sorting and searching with the program's comparator
    "qsort", "bsearch",
    -- libm
    "sqrt", "pow", "sin", "cos", "tan", "log", "log10", "exp", "floor",
    "fabs", "fmod", "sincos" ]

/-- Every directive spelling the parser recognizes, aliases included. -/
def directives : List String :=
  [ -- sections
    ".text", ".data", ".bss", ".rodata", ".section",
    -- symbol attributes
    ".global", ".globl", ".type", ".size",
    -- alignment and reservation
    ".balign", ".align", ".p2align", ".skip", ".zero", ".space",
    -- strings
    ".string", ".asciz", ".ascii",
    -- integers
    ".byte", ".hword", ".short", ".2byte", ".word", ".4byte", ".quad", ".dword", ".xword",
    ".8byte",
    -- floats
    ".double", ".float", ".single",
    -- answered with the message that says to write NAME = expression
    ".equ", ".set" ]

section Code

/-- The text up to the first place a mark is found at. -/
def upTo (mark : List Char) : List Char → List Char
  | [] => []
  | c :: l => if mark <+: c :: l then [] else c :: upTo mark l

def withoutLineComment (line : List Char) : List Char := upTo [';'] (upTo ['/', '/'] line)

/-- A line without the carriage return of its ending. -/
def stripReturn (line : List Char) : List Char :=
  if line.getLast? = some '\r' then line.dropLast else line

/-- `str::lines`: the last piece is a line only if it holds something, and has no ending. -/
def lines (source : List Char) : List (List Char) :=
  let pieces := source.splitOn '\n'
  let last := pieces.getLastD []
  pieces.dropLast.map stripReturn ++ (if last = [] then [] else [last])

def clean (source : List Char) : List Char :=
  ['\n'].intercalate ((lines source).map withoutLineComment)

def detectHostedMode (source : List Char) : Bool :=
  let lower := toLowercase (clean source)
  if directives.any (fun directive => decide (directive.toList <:+: lower)) ||
      decide ("define(".toList <:+: lower) then true
  else
    let normalized := [' '].intercalate (words isSpace lower)
    hostedLibcNames.any fun libc => decide ("bl ".toList ++ libc.toList <:+: normalized)

end Code

section Program

/-- Where in the text a character stands: in program text, in a comment to the end of its
line, in a literal or after a backslash in one, or in a block comment, its second and its
last character apart. -/
inductive Within
  | code
  | line
  | literal (quote : Char)
  | escaped (quote : Char)
  | opening
  | block
  | closing
deriving DecidableEq, Repr

/-- Whether a character is program text, and where the next one stands. -/
def Within.step (c : Char) (next : Option Char) : Within → Bool × Within
  | .code =>
      if c = '"' ∨ c = '\'' then (false, .literal c)
      else if c = ';' ∨ (c = '/' ∧ next = some '/') then (false, .line)
      else if c = '/' ∧ next = some '*' then (false, .opening)
      else (true, .code)
  | .line => (false, if c = '\n' then .code else .line)
  | .literal quote =>
      (false, if c = '\n' ∨ c = quote then .code else if c = '\\' then .escaped quote
        else .literal quote)
  | .escaped quote => (false, if c = '\n' then .code else .literal quote)
  | .opening => (false, .block)
  | .block => (false, if c = '*' ∧ next = some '/' then .closing else .block)
  | .closing => (false, .code)

/-- The text with a blank in place of every character of a comment or a literal. -/
def programFrom (within : Within) : List Char → List Char
  | [] => []
  | c :: rest =>
      let (inProgram, after) := within.step c rest.head?
      (if inProgram || c = '\n' then c else ' ') :: programFrom after rest

def programText (source : List Char) : List Char := programFrom .code source

def isWordChar (c : Char) : Bool := c.isAlphanum || c = '_' || c = '.'

def StartsWord (p : List Char) : Prop := ∀ c ∈ p.getLast?, isWordChar c = false

def EndsWord (r : List Char) : Prop := ∀ c ∈ r.head?, isWordChar c = false

/-- At a column of a line of program text stands a directive word, or `define(`. -/
inductive WordUse (text : List Char) (column : Nat) (w : List Char) : Prop
  | directive (name : String) (hname : name ∈ directives)
      (hw : lowerAsciiChars w = name.toList) (p r : List Char) (htext : text = p ++ (w ++ r))
      (hcolumn : p.length = column) (hp : StartsWord p) (hr : EndsWord r)
  | define (hw : lowerAsciiChars w = "define(".toList) (p r : List Char)
      (htext : text = p ++ (w ++ r)) (hcolumn : p.length = column) (hp : StartsWord p)

/-- At a column of a line of program text stands a `bl` with a library name for its target. -/
structure CallUse (text : List Char) (column : Nat) (b g n : List Char) : Prop where
  libc : ∃ name ∈ hostedLibcNames, lowerAsciiChars n = name.toList
  bl : lowerAsciiChars b = "bl".toList
  apart : g ≠ []
  blank : AllBlank isSpace g
  place : ∃ p r, text = p ++ (b ++ (g ++ (n ++ r))) ∧ p.length = column ∧ StartsWord p ∧
    AllBlank isSpace r

/-- The program text has a directive word, a define, or a call of a library function. -/
def Hosted (source : List Char) : Prop :=
  ∃ text ∈ (programText source).splitOn '\n',
    (∃ column w, WordUse text column w) ∨ ∃ column b g n, CallUse text column b g n

end Program

section Spellings

/-- The dotted capital I, whose lower case starts with an i. -/
def dottedI : Char := Char.ofNat 0x130

/-- A text's lower case is a spelling, or starts with it within its last letter. -/
def Spells (spelling u : List Char) : Prop :=
  toLowercase u = spelling ∨ ∃ t, u = t ++ [dottedI] ∧ spelling = toLowercase t ++ ['i']

/-- No comment mark stands in a text. -/
def Unmarked (t : List Char) : Prop := ';' ∉ t ∧ ¬ ['/', '/'] <:+: t

def spellings : List (List Char) := "define(".toList :: directives.map String.toList

/-- At a column of a line, before any comment mark, stands the spelling of a directive or a
define. -/
def SpelledWord (line : List Char) (column : Nat) (u : List Char) : Prop :=
  ∃ spelling ∈ spellings, Spells spelling u ∧
    ∃ p r, line = p ++ (u ++ r) ∧ p.length = column ∧ Unmarked (p ++ u)

/-- At a column of a line, before any comment mark, stand the spellings of `bl` and of a
library name, white space between them. -/
def SpelledCall (line : List Char) (column : Nat) (b g n : List Char) : Prop :=
  ∃ name ∈ hostedLibcNames, Spells name.toList n ∧ toLowercase b = "bl".toList ∧ g ≠ [] ∧
    AllBlank isSpace g ∧ ∃ p r, line = p ++ (b ++ (g ++ (n ++ r))) ∧ p.length = column ∧
      Unmarked (p ++ (b ++ (g ++ n)))

def lineWords (line : List Char) : List (List Char) :=
  words isSpace (toLowercase (withoutLineComment line))

/-- The last word of one line ends in `bl`, and the next word, some lines on, starts with a
library name. -/
def Crossing (source : List Char) : Prop :=
  ∃ name ∈ hostedLibcNames, ∃ before line between line' after w v,
    source.splitOn '\n' = before ++ line :: (between ++ line' :: after) ∧
      (lineWords line).getLast? = some w ∧ "bl".toList <:+ w ∧
      (∀ l ∈ between, lineWords l = []) ∧ (lineWords line').head? = some v ∧
      name.toList <+: v

def sourceLines (source : List Char) : List (List Char × List Char) :=
  (source.splitOn '\n').zip ((programText source).splitOn '\n')

/-- A use of the program text with no comment mark before its end on its line, and only white
space between a `bl` and its target. -/
def LeftWhole (source : List Char) : Prop :=
  ∃ line text, (line, text) ∈ sourceLines source ∧
    ((∃ column w, WordUse text column w ∧ Unmarked (line.take (column + w.length))) ∨
      ∃ column b g n, CallUse text column b g n ∧
        Unmarked (line.take (column + (b.length + (g.length + n.length)))) ∧
        AllBlank isSpace ((line.drop (column + b.length)).take g.length))

/-- A use of the program text behind a comment mark on its line, or with more than white space
between a `bl` and its target. -/
def Missed (source : List Char) : Prop :=
  ∃ line text, (line, text) ∈ sourceLines source ∧
    ((∃ column w, WordUse text column w ∧ ¬ Unmarked (line.take (column + w.length))) ∨
      ∃ column b g n, CallUse text column b g n ∧
        ¬ (Unmarked (line.take (column + (b.length + (g.length + n.length)))) ∧
          AllBlank isSpace ((line.drop (column + b.length)).take g.length)))

/-- A spelling that is no use of the program text: in a comment or a literal, in a longer word,
or with `bl` and its target on two lines. -/
def Stray (source : List Char) : Prop :=
  (∃ line text, (line, text) ∈ sourceLines source ∧
    ((∃ column u, SpelledWord line column u ∧ ¬ WordUse text column u) ∨
      ∃ column b g n, SpelledCall line column b g n ∧ ¬ CallUse text column b g n)) ∨
  Crossing source

end Spellings

section Marks

variable {mark l t : List Char}

theorem upTo_starts (mark l : List Char) : upTo mark l <+: l := by
  induction l with
  | nil => exact List.nil_prefix
  | cons c l ih =>
      rw [upTo]
      by_cases hmark : mark <+: c :: l
      · rw [if_pos hmark]
        exact List.nil_prefix
      · rw [if_neg hmark]
        exact List.cons_prefix_cons.mpr ⟨rfl, ih⟩

/-- What stands before a mark goes on as far as no mark starts. -/
theorem prefix_upTo (ht : t <+: l)
    (hnone : ∀ p r, t = p ++ r → r ≠ [] → ∀ q, l = p ++ q → ¬ mark <+: q) : t <+: upTo mark l := by
  induction l generalizing t with
  | nil => exact ht
  | cons c l ih =>
      cases t with
      | nil => exact List.nil_prefix
      | cons d t =>
          obtain ⟨rfl, htail⟩ := List.cons_prefix_cons.mp ht
          rw [upTo, if_neg (hnone [] (d :: t) rfl (by simp) (d :: l) rfl)]
          refine List.cons_prefix_cons.mpr ⟨rfl, ih htail ?_⟩
          intro p r hp hr q hq
          exact hnone (d :: p) r (by rw [hp]; rfl) hr q (by rw [hq]; rfl)

theorem not_infix_upTo (hmark : mark ≠ []) (l : List Char) : ¬ mark <:+: upTo mark l := by
  induction l with
  | nil => simpa [upTo] using hmark
  | cons c l ih =>
      rw [upTo]
      by_cases hstart : mark <+: c :: l
      · rw [if_pos hstart]
        simpa using hmark
      · rw [if_neg hstart, List.infix_cons_iff, not_or]
        refine ⟨fun h => hstart (h.trans ?_), ih⟩
        exact List.cons_prefix_cons.mpr ⟨rfl, upTo_starts mark l⟩

theorem withoutLineComment_starts (l : List Char) : withoutLineComment l <+: l :=
  (upTo_starts _ _).trans (upTo_starts _ _)

theorem Unmarked.of_front (h : Unmarked l) (ht : t <+: l) : Unmarked t :=
  ⟨fun hmem => h.1 (ht.subset hmem), fun hpart => h.2 (hpart.trans ht.isInfix)⟩

theorem unmarked_withoutLineComment (l : List Char) : Unmarked (withoutLineComment l) := by
  constructor
  · intro hmem
    have hpart : [';'] <:+: upTo [';'] (upTo ['/', '/'] l) := by
      obtain ⟨p, r, hsplit⟩ := List.append_of_mem hmem
      exact ⟨p, r, by rw [List.append_assoc]; exact hsplit.symm⟩
    exact not_infix_upTo (by simp) _ hpart
  · intro hpart
    exact not_infix_upTo (by simp) l (hpart.trans (upTo_starts _ _).isInfix)

/-- Text with no mark in it is left by the line stripping, a slash at its end apart. -/
theorem prefix_withoutLineComment (ht : t <+: l) (hmarks : Unmarked t)
    (hlast : t.getLast? ≠ some '/') : t <+: withoutLineComment l := by
  have hslashes : t <+: upTo ['/', '/'] l := by
    apply prefix_upTo ht
    rintro p r rfl hr q hq hstart
    subst hq
    obtain ⟨rest, rfl⟩ := (List.prefix_append_right_inj p).mp ht
    obtain ⟨tail, hq⟩ := hstart
    match r with
    | [] => exact hr rfl
    | [c] =>
        have hc : '/' = c := (List.cons.inj hq).1
        exact hlast (by simp [← hc])
    | c :: d :: r =>
        simp only [List.cons_append, List.cons.injEq] at hq
        obtain ⟨rfl, rfl, -⟩ := hq
        exact hmarks.2 ⟨p, r, by simp⟩
  apply prefix_upTo hslashes
  rintro p r rfl hr q hq hstart
  rw [hq] at hslashes
  obtain ⟨rest, rfl⟩ := (List.prefix_append_right_inj p).mp hslashes
  obtain ⟨c, r, rfl⟩ := List.exists_cons_of_ne_nil hr
  obtain ⟨tail, hq⟩ := hstart
  obtain ⟨rfl, -⟩ := List.cons.inj hq
  exact hmarks.1 (by simp)

end Marks

section LowerCase

variable {u t d e : List Char} {c : Char}

def dot : Char := Char.ofNat 0x307

theorem lowerChar_cases (c : Char) : (∃ d, lowerChar c = [d]) ∨
    c = dottedI ∧ lowerChar c = ['i', dot] := by
  rw [lowerChar]
  by_cases hkelvin : c.toNat = 0x212A
  · exact Or.inl ⟨'k', if_pos hkelvin⟩
  rw [if_neg hkelvin]
  by_cases hdotted : c.toNat = 0x130
  · refine Or.inr ⟨?_, if_pos hdotted⟩
    rw [← Char.ofNat_toNat c, hdotted]
    rfl
  · exact Or.inl ⟨c.toLower, if_neg hdotted⟩

theorem toLowercase_append (a b : List Char) :
    toLowercase (a ++ b) = toLowercase a ++ toLowercase b := List.flatMap_append

theorem toLowercase_cons (c : Char) (a : List Char) :
    toLowercase (c :: a) = lowerChar c ++ toLowercase a := rfl

/-- Lower case parts where the second part does not start inside a letter. -/
theorem toLowercase_eq_append (h : toLowercase t = d ++ e) (he : e.head? ≠ some dot) :
    ∃ a b, t = a ++ b ∧ toLowercase a = d ∧ toLowercase b = e := by
  induction t generalizing d with
  | nil =>
      have hnil : d = [] ∧ e = [] := List.append_eq_nil_iff.mp h.symm
      exact ⟨[], [], rfl, hnil.1.symm, hnil.2.symm⟩
  | cons c t ih =>
      rw [toLowercase_cons] at h
      cases d with
      | nil => exact ⟨[], c :: t, rfl, rfl, h⟩
      | cons x d =>
          rcases lowerChar_cases c with ⟨y, hy⟩ | ⟨-, hy⟩
          · rw [hy] at h
            obtain ⟨rfl, hrest⟩ := List.cons.inj h
            obtain ⟨a, b, rfl, rfl, hb⟩ := ih hrest
            exact ⟨c :: a, b, rfl, by rw [toLowercase_cons, hy]; rfl, hb⟩
          · rw [hy] at h
            obtain ⟨rfl, hrest⟩ := List.cons.inj h
            cases d with
            | nil =>
                have hdot : dot :: toLowercase t = e := hrest
                rw [← hdot] at he
                exact absurd rfl he
            | cons z d =>
                obtain ⟨rfl, htail⟩ := List.cons.inj hrest
                obtain ⟨a, b, rfl, rfl, hb⟩ := ih (d := d) htail
                exact ⟨c :: a, b, rfl, by rw [toLowercase_cons, hy]; rfl, hb⟩

/-- A spelling starts a text's lower case if some start of the text spells it. -/
theorem prefix_toLowercase (hdot : dot ∉ d) :
    d <+: toLowercase t ↔ ∃ u r, t = u ++ r ∧ Spells d u := by
  constructor
  · rintro ⟨e, h⟩
    by_cases he : e.head? = some dot
    · induction t generalizing d with
      | nil =>
          obtain ⟨-, rfl⟩ := List.append_eq_nil_iff.mp h
          cases he
      | cons c t ih =>
          rw [toLowercase_cons] at h
          cases d with
          | nil => exact ⟨[], c :: t, rfl, Or.inl rfl⟩
          | cons x d =>
              have hd : dot ∉ d := fun hmem => hdot (List.mem_cons_of_mem x hmem)
              rcases lowerChar_cases c with ⟨y, hy⟩ | ⟨rfl, hy⟩
              · rw [hy] at h
                obtain ⟨rfl, hrest⟩ := List.cons.inj h
                obtain ⟨u, r, rfl, hu⟩ := ih hd hrest
                refine ⟨c :: u, r, rfl, ?_⟩
                rcases hu with hu | ⟨v, rfl, hv⟩
                · exact Or.inl (by rw [toLowercase_cons, hy, hu]; rfl)
                · exact Or.inr ⟨c :: v, rfl, by rw [toLowercase_cons, hy, hv]; rfl⟩
              · rw [hy] at h
                obtain ⟨rfl, hrest⟩ := List.cons.inj h
                cases d with
                | nil => exact ⟨[dottedI], t, rfl, Or.inr ⟨[], rfl, rfl⟩⟩
                | cons z d =>
                    obtain ⟨rfl, -⟩ := List.cons.inj hrest
                    exact absurd List.mem_cons_self hd
    · obtain ⟨a, b, rfl, ha, -⟩ := toLowercase_eq_append h.symm he
      exact ⟨a, b, rfl, Or.inl ha⟩
  · rintro ⟨u, r, rfl, hu | ⟨v, rfl, rfl⟩⟩
    · rw [toLowercase_append, hu]
      exact List.prefix_append _ _
    · rw [toLowercase_append, toLowercase_append, List.append_assoc]
      exact (List.prefix_append_right_inj _).mpr ⟨dot :: toLowercase r, rfl⟩

/-- A spelling is in a text's lower case if some stretch of the text spells it. -/
theorem infix_toLowercase (hdot : dot ∉ d) (hne : d ≠ []) :
    d <:+: toLowercase t ↔ ∃ p u r, t = p ++ (u ++ r) ∧ Spells d u := by
  constructor
  · rintro ⟨before, after, h⟩
    rw [List.append_assoc] at h
    obtain ⟨x, rest, rfl⟩ := List.exists_cons_of_ne_nil hne
    have hhead : (x :: rest ++ after).head? ≠ some dot := by
      rintro ⟨⟩
      exact hdot List.mem_cons_self
    obtain ⟨p, q, rfl, -, hq⟩ := toLowercase_eq_append h.symm hhead
    obtain ⟨u, r, rfl, hu⟩ := (prefix_toLowercase hdot).mp ⟨after, hq.symm⟩
    exact ⟨p, u, r, rfl, hu⟩
  · rintro ⟨p, u, r, rfl, hu⟩
    have hfront := (prefix_toLowercase hdot).mpr ⟨u, r, rfl, hu⟩
    rw [toLowercase_append]
    exact hfront.isInfix.trans (List.suffix_append _ _).isInfix

end LowerCase

section Lines

variable {source : List Char}

theorem isSpace_of_isSpace_toLower {c : Char} (h : isSpace c.toLower = true) :
    isSpace c = true := by
  unfold Char.toLower at h
  split at h
  · rename_i hupper
    simp only [ge_iff_le, UInt32.le_iff_toNat_le] at hupper
    simp [isSpace] at hupper h
    omega
  · exact h

/-- White space comes from white space alone. -/
theorem isSpace_lowerChar {c d : Char} (hd : d ∈ lowerChar c) (h : isSpace d = true) :
    isSpace c = true := by
  rw [lowerChar] at hd
  by_cases hkelvin : c.toNat = 0x212A
  · rw [if_pos hkelvin, List.mem_singleton] at hd
    rw [hd] at h
    exact absurd h (by decide)
  rw [if_neg hkelvin] at hd
  by_cases hdotted : c.toNat = 0x130
  · rw [if_pos hdotted] at hd
    rcases List.mem_pair.mp hd with rfl | rfl
    · exact absurd h (by decide)
    · exact absurd h (by decide)
  · rw [if_neg hdotted, List.mem_singleton] at hd
    exact isSpace_of_isSpace_toLower (hd ▸ h)

theorem words_lower_append_return (t : List Char) :
    words isSpace (toLowercase (t ++ ['\r'])) = words isSpace (toLowercase t) := by
  rw [toLowercase_append]
  apply words_append_allBlank
  rintro c hc
  rw [List.mem_singleton.mp hc]
  rfl

theorem upTo_append_return (mark : List Char) (hmark : '\r' ∉ mark) (hne : mark ≠ [])
    (t : List Char) : upTo mark (t ++ ['\r']) = upTo mark t ∨
      upTo mark (t ++ ['\r']) = upTo mark t ++ ['\r'] ∧ upTo mark t = t := by
  induction t with
  | nil =>
      right
      have hstart : ¬ mark <+: ['\r'] := by
        intro h
        obtain ⟨c, rest, rfl⟩ := List.exists_cons_of_ne_nil hne
        obtain ⟨rfl, -⟩ := List.cons_prefix_cons.mp h
        exact hmark List.mem_cons_self
      simp [upTo, hstart]
  | cons c t ih =>
      have hiff : mark <+: c :: (t ++ ['\r']) ↔ mark <+: c :: t := by
        constructor
        · intro h
          rcases List.prefix_concat_iff.mp (show mark <+: (c :: t) ++ ['\r'] from h) with heq | h
          · exact absurd (by rw [heq]; simp) hmark
          · exact h
        · intro h
          exact h.trans (List.prefix_append (c :: t) ['\r'])
      rw [List.cons_append, upTo, upTo]
      by_cases hstart : mark <+: c :: t
      · rw [if_pos hstart, if_pos (hiff.mpr hstart)]
        exact Or.inl rfl
      · rw [if_neg hstart, if_neg (fun h => hstart (hiff.mp h))]
        rcases ih with h | ⟨h, ht⟩
        · exact Or.inl (by rw [h])
        · exact Or.inr ⟨by rw [h]; rfl, by rw [ht]⟩

theorem lineWords_stripReturn (line : List Char) :
    lineWords (stripReturn line) = lineWords line := by
  rw [stripReturn]
  by_cases hlast : line.getLast? = some '\r'
  · rw [if_pos hlast]
    obtain ⟨t, rfl⟩ := List.getLast?_eq_some_iff.mp hlast
    rw [List.dropLast_concat, lineWords, lineWords, withoutLineComment, withoutLineComment]
    rcases upTo_append_return ['/', '/'] (by decide) (by decide) t with h | ⟨h, ht⟩
    · rw [h]
    · rw [h]
      rcases upTo_append_return [';'] (by decide) (by decide)
        (upTo ['/', '/'] t) with h' | ⟨h', -⟩
      · rw [h']
      · rw [h', words_lower_append_return]
  · rw [if_neg hlast]

/-- The lower-cased text left by the line stripping has the words of its lines. -/
theorem words_clean (source : List Char) :
    words isSpace (toLowercase (clean source)) = (source.splitOn '\n').flatMap lineWords := by
  have hjoin (xs : List (List Char)) : toLowercase (['\n'].intercalate xs) =
      ['\n'].intercalate (xs.map toLowercase) := by
    induction xs with
    | nil => rfl
    | cons x xs ih =>
        cases xs with
        | nil => simp
        | cons y ys =>
            rw [List.intercalate_cons_cons, toLowercase_append, toLowercase_append, ih,
              List.map_cons, List.map_cons, List.map_cons, List.intercalate_cons_cons]
            rfl
  have hlines : (lines source).flatMap lineWords = (source.splitOn '\n').flatMap lineWords := by
    obtain ⟨pieces, last, hpieces⟩ : ∃ pieces last, source.splitOn '\n' = pieces ++ [last] :=
      ⟨_, _, (List.dropLast_append_getLast (List.splitOn_ne_nil '\n' source)).symm⟩
    have hreturn : (pieces.map stripReturn).flatMap lineWords = pieces.flatMap lineWords := by
      rw [List.flatMap_map]
      exact congrArg pieces.flatMap (funext lineWords_stripReturn)
    have hlast : (if last = [] then [] else [last]).flatMap lineWords = lineWords last := by
      by_cases hnil : last = []
      · rw [if_pos hnil, hnil]
        rfl
      · rw [if_neg hnil, List.flatMap_singleton]
    simp only [lines, hpieces, List.dropLast_concat, List.getLastD_concat, List.flatMap_append,
      hreturn, hlast, List.flatMap_singleton]
  rw [clean, hjoin, words_intercalate_blank (by decide), List.map_map, List.flatMap_map, ← hlines]
  rfl

end Lines

section Spelled

variable {source line x y u : List Char}

/-- An ASCII character that is no white space and no slash. -/
def isPlain (c : Char) : Bool := !isSpace c && c != '/' && decide (c.toNat < 128)

def Plain (d : List Char) : Prop := d ≠ [] ∧ ∀ c ∈ d, isPlain c = true

theorem isPlain_iff (c : Char) :
    isPlain c = true ↔ isSpace c = false ∧ c ≠ '/' ∧ c.toNat < 128 := by
  simp [isPlain, and_assoc]

theorem Plain.noBlank {d : List Char} (h : Plain d) : NoBlank isSpace d :=
  fun c hc => ((isPlain_iff c).mp (h.2 c hc)).1

theorem Plain.dot_not_mem {d : List Char} (h : Plain d) : dot ∉ d :=
  fun hc => absurd ((isPlain_iff dot).mp (h.2 dot hc)).2.2 (by decide)

theorem Plain.slash_not_mem {d : List Char} (h : Plain d) : '/' ∉ d :=
  fun hc => ((isPlain_iff '/').mp (h.2 '/' hc)).2.1 rfl

theorem plain_iff (d : List Char) : Plain d ↔ (!d.isEmpty && d.all isPlain) = true := by
  simp [Plain]

set_option maxRecDepth 8192 in
theorem plain_spelling {d : List Char} (h : d ∈ spellings) : Plain d := by
  rw [plain_iff]
  revert d
  decide

set_option maxRecDepth 8192 in
theorem plain_libc {name : String} (h : name ∈ hostedLibcNames) : Plain name.toList := by
  rw [plain_iff]
  revert name
  decide

theorem plain_bl : Plain "bl".toList := by
  rw [plain_iff]
  decide

theorem lowerChar_of_isSpace {c : Char} (h : isSpace c = true) : lowerChar c = [c] := by
  have hn : c.toNat ≠ 0x212A ∧ c.toNat ≠ 0x130 ∧ ¬ (65 ≤ c.toNat ∧ c.toNat ≤ 90) := by
    simp [isSpace] at h
    omega
  rw [lowerChar, if_neg hn.1, if_neg hn.2.1]
  congr 1
  unfold Char.toLower
  split
  · rename_i hupper
    simp only [ge_iff_le, UInt32.le_iff_toNat_le] at hupper
    exact absurd hupper hn.2.2
  · rfl

theorem toLowercase_of_allBlank {g : List Char} (h : AllBlank isSpace g) :
    toLowercase g = g := by
  induction g with
  | nil => rfl
  | cons c g ih =>
      obtain ⟨hc, hg⟩ := List.forall_mem_cons.mp h
      rw [toLowercase_cons, lowerChar_of_isSpace hc, ih hg]
      rfl

theorem allBlank_of_toLowercase {g : List Char} (h : AllBlank isSpace (toLowercase g)) :
    AllBlank isSpace g := by
  intro c hc
  have hne : lowerChar c ≠ [] := by
    rcases lowerChar_cases c with ⟨d, hd⟩ | ⟨-, hd⟩
    · simp [hd]
    · simp [hd]
  obtain ⟨d, rest, hd⟩ := List.exists_cons_of_ne_nil hne
  have hmem : d ∈ lowerChar c := by simp [hd]
  exact isSpace_lowerChar hmem (h d (List.mem_flatMap.mpr ⟨c, hc, hmem⟩))

/-- A text that spells something holds no slash unless the spelling does. -/
theorem Spells.slash_not_mem (h : Spells x u) (hx : '/' ∉ x) : '/' ∉ u := by
  have hlower {t : List Char} (ht : '/' ∈ t) : '/' ∈ toLowercase t :=
    List.mem_flatMap.mpr ⟨'/', ht, by decide⟩
  rcases h with rfl | ⟨t, rfl, rfl⟩
  · exact fun hu => hx (hlower hu)
  · intro hu
    rcases List.mem_append.mp hu with hu | hu
    · exact hx (List.mem_append_left _ (hlower hu))
    · exact absurd (List.mem_singleton.mp hu) (by decide)

theorem Spells.ne_nil (h : Spells x u) (hx : x ≠ []) : u ≠ [] := by
  rintro rfl
  rcases h with rfl | ⟨t, ht, -⟩
  · exact hx rfl
  · simp at ht

/-- A spelling in two parts is spelled by a text in two parts. -/
theorem spells_append (hne : y ≠ []) (hy : dot ∉ y) :
    Spells (x ++ y) u ↔ ∃ a b, u = a ++ b ∧ toLowercase a = x ∧ Spells y b := by
  constructor
  · rintro (h | ⟨t, rfl, h⟩)
    · have hhead : y.head? ≠ some dot := fun h => hy (List.mem_of_head? h)
      obtain ⟨a, b, rfl, ha, hb⟩ := toLowercase_eq_append h hhead
      exact ⟨a, b, rfl, ha, Or.inl hb⟩
    · obtain ⟨y, last, rfl⟩ : ∃ y' last, y = y' ++ [last] :=
        ⟨_, _, (List.dropLast_append_getLast hne).symm⟩
      rw [← List.append_assoc] at h
      obtain ⟨h, hlast⟩ := List.append_inj' h rfl
      have hhead : y.head? ≠ some dot :=
        fun h => hy (List.mem_append_left _ (List.mem_of_head? h))
      obtain ⟨a, b, rfl, ha, hb⟩ := toLowercase_eq_append h.symm hhead
      exact ⟨a, b ++ [dottedI], by simp, ha, Or.inr ⟨b, rfl, by rw [hb, hlast]⟩⟩
  · rintro ⟨a, b, rfl, rfl, hb | ⟨t, rfl, rfl⟩⟩
    · exact Or.inl (by rw [toLowercase_append, hb])
    · exact Or.inr ⟨a ++ t, by simp, by rw [toLowercase_append, List.append_assoc]⟩

/-- What stands on a line before any mark is what the line stripping leaves. -/
theorem prefix_withoutLineComment_iff (line : List Char) (hlast : u.getLast? ≠ some '/') :
    u <+: withoutLineComment line ↔ u <+: line ∧ Unmarked u := by
  constructor
  · intro h
    exact ⟨h.trans (withoutLineComment_starts line),
      (unmarked_withoutLineComment line).of_front h⟩
  · rintro ⟨h, hmarks⟩
    exact prefix_withoutLineComment h hmarks hlast

theorem Spells.getLast_append_ne (h : Spells x u) (hx : Plain x) (p : List Char) :
    (p ++ u).getLast? ≠ some '/' := by
  rw [List.getLast?_append_of_ne_nil _ (h.ne_nil hx.1)]
  exact fun hlast => h.slash_not_mem hx.slash_not_mem (List.mem_of_getLast? hlast)

/-- The lower-cased line has a spelling just where one stands before any mark. -/
theorem exists_spelledWord_iff :
    (∃ d ∈ spellings, d <:+: toLowercase (withoutLineComment line)) ↔
      ∃ column u, SpelledWord line column u := by
  constructor
  · rintro ⟨d, hd, hpart⟩
    obtain ⟨p, u, r, hline, hu⟩ := (infix_toLowercase (plain_spelling hd).dot_not_mem
      (plain_spelling hd).1).mp hpart
    have hfront : p ++ u <+: withoutLineComment line := ⟨r, by rw [hline, List.append_assoc]⟩
    obtain ⟨⟨rest, hrest⟩, hmarks⟩ := (prefix_withoutLineComment_iff line
      (hu.getLast_append_ne (plain_spelling hd) p)).mp hfront
    exact ⟨p.length, u, d, hd, hu, p, rest, by rw [← hrest, List.append_assoc], rfl, hmarks⟩
  · rintro ⟨column, u, d, hd, hu, p, r, hline, -, hmarks⟩
    obtain ⟨rest, hrest⟩ := (prefix_withoutLineComment_iff line
      (hu.getLast_append_ne (plain_spelling hd) p)).mpr
      ⟨⟨r, by rw [hline, List.append_assoc]⟩, hmarks⟩
    exact ⟨d, hd, (infix_toLowercase (plain_spelling hd).dot_not_mem (plain_spelling hd).1).mpr
      ⟨p, u, rest, by rw [← hrest, List.append_assoc], hu⟩⟩

/-- The words of a line have `bl` and a library name side by side just where the two stand
before any mark, white space between them. -/
theorem exists_spelledCall_iff :
    (∃ name ∈ hostedLibcNames, ∃ w v, [w, v] <:+: lineWords line ∧ "bl".toList <:+ w ∧
      name.toList <+: v) ↔ ∃ column b g n, SpelledCall line column b g n := by
  constructor
  · rintro ⟨name, hname, hwords⟩
    have hlibc := plain_libc hname
    obtain ⟨g', hne, hg', hpart⟩ := (gap_iff_words plain_bl.noBlank hlibc.noBlank plain_bl.1
      hlibc.1).mpr hwords
    have hdot : dot ∉ "bl".toList ++ (g' ++ name.toList) := by
      simp only [List.mem_append, not_or]
      refine ⟨plain_bl.dot_not_mem, fun hmem => ?_, hlibc.dot_not_mem⟩
      exact absurd (hg' dot hmem) (by decide)
    obtain ⟨p, u, r, hline, hu⟩ := (infix_toLowercase hdot (by simp)).mp hpart
    rw [← List.append_assoc] at hu
    obtain ⟨bg, n, rfl, hbg, hn⟩ := (spells_append hlibc.1 hlibc.dot_not_mem).mp hu
    have hhead : g'.head? ≠ some dot :=
      fun h => absurd (hg' dot (List.mem_of_head? h)) (by decide)
    obtain ⟨b, g, rfl, hb, hg⟩ := toLowercase_eq_append hbg hhead
    have hblank : AllBlank isSpace g := allBlank_of_toLowercase (hg ▸ hg')
    have hgne : g ≠ [] := by
      rintro rfl
      exact hne hg.symm
    have hfront : (p ++ (b ++ g)) ++ n <+: withoutLineComment line :=
      ⟨r, by rw [hline]; simp⟩
    obtain ⟨⟨rest, hrest⟩, hmarks⟩ := (prefix_withoutLineComment_iff line
      (hn.getLast_append_ne hlibc (p ++ (b ++ g)))).mp hfront
    refine ⟨p.length, b, g, n, name, hname, hn, hb, hgne, hblank, p, rest, ?_, rfl, ?_⟩
    · rw [← hrest]
      simp
    · simpa using hmarks
  · rintro ⟨column, b, g, n, name, hname, hn, hb, hgne, hg, p, r, hline, -, hmarks⟩
    have hlibc := plain_libc hname
    refine ⟨name, hname, (gap_iff_words plain_bl.noBlank hlibc.noBlank plain_bl.1
      hlibc.1).mp ⟨g, hgne, hg, ?_⟩⟩
    obtain ⟨rest, hrest⟩ := (prefix_withoutLineComment_iff line
      (hn.getLast_append_ne hlibc (p ++ (b ++ g)))).mpr
      ⟨⟨r, by rw [hline]; simp⟩, by simpa using hmarks⟩
    have hfront : name.toList <+: toLowercase (n ++ rest) :=
      (prefix_toLowercase hlibc.dot_not_mem).mpr ⟨n, rest, rfl, hn⟩
    obtain ⟨tail, htail⟩ := hfront
    refine ⟨toLowercase p, tail, ?_⟩
    have hsplit : withoutLineComment line = p ++ (b ++ (g ++ (n ++ rest))) := by
      rw [← hrest]
      simp
    rw [hsplit, toLowercase_append, toLowercase_append, toLowercase_append, hb,
      toLowercase_of_allBlank hg, ← htail]
    simp

end Spelled

section Detected

variable (source : List Char)

theorem spelling_infix_clean {d : List Char} (hd : d ∈ spellings) :
    d <:+: toLowercase (clean source) ↔
      ∃ line ∈ source.splitOn '\n', d <:+: toLowercase (withoutLineComment line) := by
  have hplain := plain_spelling hd
  have hline (line : List Char) : d <:+: toLowercase (withoutLineComment line) ↔
      ∃ w ∈ lineWords line, d <:+: w := infix_iff_words hplain.noBlank hplain.1
  rw [infix_iff_words hplain.noBlank hplain.1, words_clean]
  simp only [hline, List.mem_flatMap]
  constructor
  · rintro ⟨w, ⟨line, hline, hw⟩, hpart⟩
    exact ⟨line, hline, w, hw, hpart⟩
  · rintro ⟨line, hline, w, hw, hpart⟩
    exact ⟨w, ⟨line, hline, hw⟩, hpart⟩

theorem libc_infix_normalized {name : String} (hname : name ∈ hostedLibcNames) :
    "bl ".toList ++ name.toList <:+: [' '].intercalate (words isSpace
        (toLowercase (clean source))) ↔
      ∃ w v, [w, v] <:+: (source.splitOn '\n').flatMap lineWords ∧ "bl".toList <:+ w ∧
        name.toList <+: v := by
  have hlibc := plain_libc hname
  have hpattern : "bl ".toList ++ name.toList = "bl".toList ++ ' ' :: name.toList := rfl
  rw [hpattern, single_gap_iff_words (by decide) plain_bl.noBlank hlibc.noBlank plain_bl.1
    hlibc.1, words_clean]

/-- The detection finds a spelled word or call on some line, or a call across lines. -/
theorem detectHostedMode_iff : detectHostedMode source = true ↔
    (∃ line ∈ source.splitOn '\n', (∃ column u, SpelledWord line column u) ∨
      ∃ column b g n, SpelledCall line column b g n) ∨ Crossing source := by
  have hwords : detectHostedMode source = true ↔
      (∃ d ∈ spellings, d <:+: toLowercase (clean source)) ∨ ∃ name ∈ hostedLibcNames,
        "bl ".toList ++ name.toList <:+: [' '].intercalate (words isSpace
          (toLowercase (clean source))) := by
    simp only [detectHostedMode, spellings, List.mem_cons, List.mem_map, exists_eq_or_imp,
      Bool.if_true_left, Bool.or_eq_true, List.any_eq_true, decide_eq_true_eq,
      exists_exists_and_eq_and, or_comm]
  rw [hwords]
  constructor
  · rintro (⟨d, hd, hpart⟩ | ⟨name, hname, hpart⟩)
    · obtain ⟨line, hline, h⟩ := (spelling_infix_clean source hd).mp hpart
      exact Or.inl ⟨line, hline, Or.inl (exists_spelledWord_iff.mp ⟨d, hd, h⟩)⟩
    · obtain ⟨w, v, hpair, hw, hv⟩ := (libc_infix_normalized source hname).mp hpart
      rcases pair_infix_flatMap.mp hpair with ⟨line, hline, h⟩ |
        ⟨before, line, between, line', after, hpieces, hlast, hbetween, hhead⟩
      · exact Or.inl ⟨line, hline,
          Or.inr (exists_spelledCall_iff.mp ⟨name, hname, w, v, h, hw, hv⟩)⟩
      · exact Or.inr ⟨name, hname, before, line, between, line', after, w, v, hpieces, hlast, hw,
          hbetween, hhead, hv⟩
  · rintro (⟨line, hline, hword | hcall⟩ | hcross)
    · obtain ⟨d, hd, h⟩ := exists_spelledWord_iff.mpr hword
      exact Or.inl ⟨d, hd, (spelling_infix_clean source hd).mpr ⟨line, hline, h⟩⟩
    · obtain ⟨name, hname, w, v, h, hw, hv⟩ := exists_spelledCall_iff.mpr hcall
      exact Or.inr ⟨name, hname, (libc_infix_normalized source hname).mpr
        ⟨w, v, pair_infix_flatMap.mpr (Or.inl ⟨line, hline, h⟩), hw, hv⟩⟩
    · obtain ⟨name, hname, before, line, between, line', after, w, v, hpieces, hlast, hw,
        hbetween, hhead, hv⟩ := hcross
      exact Or.inr ⟨name, hname, (libc_infix_normalized source hname).mpr ⟨w, v,
        pair_infix_flatMap.mpr (Or.inr
          ⟨before, line, between, line', after, hpieces, hlast, hbetween, hhead⟩), hw, hv⟩⟩

end Detected

section Uses

variable {source line text w b g n : List Char} {column : Nat}

/-- Program text next to its source: a character is kept or a blank stands in its place. -/
def Masks (c d : Char) : Prop := (d = c ∨ d = ' ') ∧ (c = '\n' ↔ d = '\n')

theorem masks_ite (inProgram : Bool) (c : Char) :
    Masks c (if inProgram || c = '\n' then c else ' ') := by
  by_cases hkept : (inProgram || decide (c = '\n')) = true
  · rw [if_pos hkept]
    exact ⟨Or.inl rfl, Iff.rfl⟩
  · rw [if_neg hkept]
    have hline : c ≠ '\n' := fun hc => hkept (by simp [hc])
    exact ⟨Or.inr rfl, iff_of_false hline (by decide)⟩

theorem masks_programFrom (within : Within) (source : List Char) :
    List.Forall₂ Masks source (programFrom within source) := by
  induction source generalizing within with
  | nil => exact .nil
  | cons c rest ih => exact .cons (masks_ite _ c) (ih _)

theorem masks_lines (source : List Char) : List.Forall₂ (List.Forall₂ Masks)
    (source.splitOn '\n') ((programText source).splitOn '\n') :=
  Lines.forall₂_splitOn (fun _ _ h => h.2) (masks_programFrom .code source)

theorem masks_of_mem (h : (line, text) ∈ sourceLines source) :
    List.Forall₂ Masks line text := List.forall₂_zip (masks_lines source) h

theorem mem_sourceLines {i : Nat} (hi : i < (source.splitOn '\n').length)
    (hi' : i < ((programText source).splitOn '\n').length) :
    ((source.splitOn '\n')[i], ((programText source).splitOn '\n')[i]) ∈ sourceLines source := by
  refine List.mem_iff_getElem.mpr ⟨i, ?_, ?_⟩
  · simp [sourceLines, hi, hi']
  · simp [sourceLines]

theorem exists_text (h : line ∈ source.splitOn '\n') :
    ∃ text, (line, text) ∈ sourceLines source := by
  obtain ⟨i, hi, rfl⟩ := List.mem_iff_getElem.mp h
  exact ⟨_, mem_sourceLines hi ((masks_lines source).length_eq ▸ hi)⟩

theorem exists_line (h : text ∈ (programText source).splitOn '\n') :
    ∃ line, (line, text) ∈ sourceLines source := by
  obtain ⟨i, hi, rfl⟩ := List.mem_iff_getElem.mp h
  exact ⟨_, mem_sourceLines ((masks_lines source).length_eq ▸ hi) hi⟩

/-- Program text that is no blank is the source's. -/
theorem eq_of_masks (h : List.Forall₂ Masks w b) (hblank : ' ' ∉ b) : w = b := by
  induction h with
  | nil => rfl
  | cons hcd hrest ih =>
      simp only [List.mem_cons, not_or] at hblank
      rcases hcd.1 with rfl | rfl
      · rw [ih hblank.2]
      · exact absurd rfl hblank.1

theorem masks_append {r : List Char} (h : List.Forall₂ Masks line (w ++ r)) :
    ∃ u v, line = u ++ v ∧ List.Forall₂ Masks u w ∧ List.Forall₂ Masks v r :=
  ⟨line.take w.length, line.drop w.length, (List.take_append_drop _ _).symm,
    List.forall₂_take_append _ _ _ h, List.forall₂_drop_append _ _ _ h⟩

theorem toLower_lt {c : Char} (h : c.toLower.toNat < 128) : c.toNat < 128 := by
  unfold Char.toLower at h
  split at h
  · rename_i hupper
    simp only [ge_iff_le, UInt32.le_iff_toNat_le] at hupper
    simp at hupper ⊢
    omega
  · exact h

theorem Plain.of_lowerAscii {d : List Char} (hd : Plain d) (hw : lowerAsciiChars w = d) :
    toLowercase w = d ∧ ' ' ∉ w := by
  have hchars : ∀ c ∈ w, isPlain c.toLower = true := by
    intro c hc
    exact hd.2 _ (hw ▸ List.mem_map_of_mem hc)
  constructor
  · rw [← hw]
    clear hw hd
    induction w with
    | nil => rfl
    | cons c w ih =>
        obtain ⟨hc, hw⟩ := List.forall_mem_cons.mp hchars
        have hlt := toLower_lt ((isPlain_iff _).mp hc).2.2
        have hlower : lowerChar c = [c.toLower] := by
          rw [lowerChar, if_neg (by omega), if_neg (by omega)]
        rw [toLowercase_cons, hlower, ih hw]
        rfl
  · intro hblank
    exact absurd (hchars ' ' hblank) (by decide)

theorem exists_spelling (h : WordUse text column w) : ∃ d ∈ spellings, lowerAsciiChars w = d ∧
    ∃ p r, text = p ++ (w ++ r) ∧ p.length = column := by
  cases h with
  | directive name hname hw p r htext hcolumn hp hr =>
      exact ⟨name.toList, List.mem_cons_of_mem _ (List.mem_map_of_mem hname), hw, p, r, htext,
        hcolumn⟩
  | define hw p r htext hcolumn hp =>
      exact ⟨_, List.mem_cons_self, hw, p, r, htext, hcolumn⟩

section Places

variable (p b g n r : List Char)

theorem take_word : (p ++ (b ++ r)).take (p.length + b.length) = p ++ b := by
  rw [List.take_length_add_append, List.take_left]

theorem take_call : (p ++ (b ++ (g ++ (n ++ r)))).take
    (p.length + (b.length + (g.length + n.length))) = p ++ (b ++ (g ++ n)) := by
  rw [List.take_length_add_append, List.take_length_add_append, List.take_length_add_append,
    List.take_left]

theorem take_gap :
    ((p ++ (b ++ (g ++ r))).drop (p.length + b.length)).take g.length = g := by
  rw [List.drop_length_add_append, List.drop_left, List.take_left]

end Places

/-- A word used before any comment mark is spelled there. -/
theorem WordUse.spelledWord (h : WordUse text column w) (hline : List.Forall₂ Masks line text)
    (hmarks : Unmarked (line.take (column + w.length))) : SpelledWord line column w := by
  obtain ⟨d, hd, hw, p, r, rfl, rfl⟩ := exists_spelling h
  obtain ⟨hlower, hblank⟩ := (plain_spelling hd).of_lowerAscii hw
  obtain ⟨p', rest, rfl, hp, hrest⟩ := masks_append hline
  obtain ⟨w', r', rfl, hw', -⟩ := masks_append hrest
  obtain rfl := eq_of_masks hw' hblank
  refine ⟨d, hd, Or.inl hlower, p', r', rfl, hp.length_eq, ?_⟩
  rwa [← hp.length_eq, take_word] at hmarks

/-- A call used before any comment mark, only white space in it, is spelled there. -/
theorem CallUse.spelledCall (h : CallUse text column b g n)
    (hline : List.Forall₂ Masks line text)
    (hmarks : Unmarked (line.take (column + (b.length + (g.length + n.length)))))
    (hgap : AllBlank isSpace ((line.drop (column + b.length)).take g.length)) :
    ∃ g', SpelledCall line column b g' n := by
  obtain ⟨name, hname, hn⟩ := h.libc
  obtain ⟨p, r, rfl, rfl, -, -⟩ := h.place
  obtain ⟨hlower, hblank⟩ := (plain_libc hname).of_lowerAscii hn
  obtain ⟨hbl, hbblank⟩ := plain_bl.of_lowerAscii h.bl
  obtain ⟨p', rest, rfl, hp, hrest⟩ := masks_append hline
  obtain ⟨b', rest, rfl, hb, hrest⟩ := masks_append hrest
  obtain ⟨g', rest, rfl, hg, hrest⟩ := masks_append hrest
  obtain ⟨n', r', rfl, hn', -⟩ := masks_append hrest
  obtain rfl := eq_of_masks hb hbblank
  obtain rfl := eq_of_masks hn' hblank
  rw [← hp.length_eq, ← hg.length_eq] at hmarks hgap
  refine ⟨g', name, hname, Or.inl hlower, hbl, ?_, ?_, p', r', rfl, hp.length_eq, ?_⟩
  · rintro rfl
    exact h.apart (List.length_eq_zero_iff.mp hg.length_eq.symm)
  · rwa [take_gap] at hgap
  · rwa [take_call] at hmarks

end Uses

section Exact

variable (source : List Char)

/-- The detection finds the uses the line stripping leaves whole, and the stray spellings. -/
theorem detectHostedMode_iff_leftWhole_or_stray :
    detectHostedMode source = true ↔ LeftWhole source ∨ Stray source := by
  rw [detectHostedMode_iff]
  constructor
  · rintro (⟨line, hline, hspelled⟩ | hcross)
    · obtain ⟨text, hmem⟩ := exists_text hline
      rcases hspelled with ⟨column, u, hword⟩ | ⟨column, b, g, n, hcall⟩
      · by_cases huse : WordUse text column u
        · obtain ⟨-, -, -, p, r, rfl, rfl, hmarks⟩ := id hword
          refine Or.inl ⟨_, text, hmem, Or.inl ⟨p.length, u, huse, ?_⟩⟩
          rwa [take_word]
        · exact Or.inr (Or.inl ⟨line, text, hmem, Or.inl ⟨column, u, hword, huse⟩⟩)
      · by_cases huse : CallUse text column b g n
        · obtain ⟨-, -, -, -, -, hgap, p, r, rfl, rfl, hmarks⟩ := id hcall
          refine Or.inl ⟨_, text, hmem, Or.inr ⟨p.length, b, g, n, huse, ?_, ?_⟩⟩
          · rwa [take_call]
          · rwa [take_gap]
        · exact Or.inr (Or.inl ⟨line, text, hmem, Or.inr ⟨column, b, g, n, hcall, huse⟩⟩)
    · exact Or.inr (Or.inr hcross)
  · have hsource {line text : List Char} (h : (line, text) ∈ sourceLines source) :
        line ∈ source.splitOn '\n' := (List.of_mem_zip h).1
    rintro (⟨line, text, hmem, hwhole⟩ | ⟨line, text, hmem, hstray⟩ | hcross)
    · rcases hwhole with ⟨column, w, huse, hmarks⟩ | ⟨column, b, g, n, huse, hmarks, hgap⟩
      · exact Or.inl ⟨line, hsource hmem,
          Or.inl ⟨column, w, huse.spelledWord (masks_of_mem hmem) hmarks⟩⟩
      · obtain ⟨g', hcall⟩ := huse.spelledCall (masks_of_mem hmem) hmarks hgap
        exact Or.inl ⟨line, hsource hmem, Or.inr ⟨column, b, g', n, hcall⟩⟩
    · rcases hstray with ⟨column, u, hword, -⟩ | ⟨column, b, g, n, hcall, -⟩
      · exact Or.inl ⟨line, hsource hmem, Or.inl ⟨column, u, hword⟩⟩
      · exact Or.inl ⟨line, hsource hmem, Or.inr ⟨column, b, g, n, hcall⟩⟩
    · exact Or.inr hcross

theorem hosted_iff_leftWhole_or_missed : Hosted source ↔ LeftWhole source ∨ Missed source := by
  constructor
  · rintro ⟨text, htext, ⟨column, w, huse⟩ | ⟨column, b, g, n, huse⟩⟩
    · obtain ⟨line, hmem⟩ := exists_line htext
      by_cases hmarks : Unmarked (line.take (column + w.length))
      · exact Or.inl ⟨line, text, hmem, Or.inl ⟨column, w, huse, hmarks⟩⟩
      · exact Or.inr ⟨line, text, hmem, Or.inl ⟨column, w, huse, hmarks⟩⟩
    · obtain ⟨line, hmem⟩ := exists_line htext
      by_cases hwhole : Unmarked (line.take (column + (b.length + (g.length + n.length)))) ∧
          AllBlank isSpace ((line.drop (column + b.length)).take g.length)
      · exact Or.inl ⟨line, text, hmem, Or.inr ⟨column, b, g, n, huse, hwhole.1, hwhole.2⟩⟩
      · exact Or.inr ⟨line, text, hmem, Or.inr ⟨column, b, g, n, huse, hwhole⟩⟩
  · rintro (⟨line, text, hmem, huse⟩ | ⟨line, text, hmem, huse⟩) <;>
      refine ⟨text, (List.of_mem_zip hmem).2, ?_⟩
    · rcases huse with ⟨column, w, huse, -⟩ | ⟨column, b, g, n, huse, -⟩
      · exact Or.inl ⟨column, w, huse⟩
      · exact Or.inr ⟨column, b, g, n, huse⟩
    · rcases huse with ⟨column, w, huse, -⟩ | ⟨column, b, g, n, huse, -⟩
      · exact Or.inl ⟨column, w, huse⟩
      · exact Or.inr ⟨column, b, g, n, huse⟩

/-- The detection says what the program text does just when a use is left whole, or uses are
missed and a stray spelling stands in for them, or there is neither. -/
theorem detectHostedMode_exact : (detectHostedMode source = true ↔ Hosted source) ↔
    LeftWhole source ∨ Missed source ∧ Stray source ∨ ¬ Missed source ∧ ¬ Stray source := by
  rw [detectHostedMode_iff_leftWhole_or_stray, hosted_iff_leftWhole_or_missed]
  by_cases hwhole : LeftWhole source
  · simp only [hwhole, true_or]
  · simp only [hwhole, false_or]
    exact iff_comm.trans iff_iff_and_or_not_and_not

variable {source}

/-- A program with a use has the letters of one on some line. -/
theorem Hosted.letters (h : Hosted source) : ∃ text ∈ (programText source).splitOn '\n',
    ∃ d ∈ "bl".toList :: spellings, d <:+: lowerAsciiChars text := by
  obtain ⟨text, htext, ⟨column, w, huse⟩ | ⟨column, b, g, n, huse⟩⟩ := h
  · obtain ⟨d, hd, hw, p, r, rfl, -⟩ := exists_spelling huse
    refine ⟨_, htext, d, List.mem_cons_of_mem _ hd, lowerAsciiChars p, lowerAsciiChars r, ?_⟩
    rw [← hw]
    simp [lowerAsciiChars]
  · obtain ⟨p, r, rfl, -⟩ := huse.place
    refine ⟨_, htext, _, List.mem_cons_self, lowerAsciiChars p,
      lowerAsciiChars (g ++ (n ++ r)), ?_⟩
    rw [← huse.bl]
    simp [lowerAsciiChars]

/-- A directive in a block comment. -/
def commented : List Char := "/* .data */\nmov x0, 1\n".toList

/-- A block comment puts a program with no hosted feature through the hosted assembler. -/
theorem not_exact_commented : ¬ (detectHostedMode commented = true ↔ Hosted commented) := by
  intro h
  have hdetect : detectHostedMode commented = true := by decide
  obtain ⟨text, htext, d, hd, hpart⟩ := (h.mp hdetect).letters
  have hnone : ∀ text ∈ (programText commented).splitOn '\n', ∀ d ∈ "bl".toList :: spellings,
      ¬ d <:+: lowerAsciiChars text := by
    decide
  exact hnone text htext d hd hpart

end Exact

end Detection

end Playground
