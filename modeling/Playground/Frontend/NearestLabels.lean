/-
Local labels name the nearest definition: what a line's definitions and references are,
and how the names the pass writes match them.
-/
import Playground.Frontend.Comments
import Playground.Frontend.LocalLabels
import Playground.Library.Occurrences

namespace Playground

namespace LocalLabels

open Lexer

def IsNumber (n : List Char) : Prop := n ≠ [] ∧ ∀ c ∈ n, c.isDigit = true

/-- The chunks of a line.  Literals end where the lexer ends them, or with the line; a
definition is a number before a colon with only labels before it, and a reference a number
with a `b` or an `f` for a last letter. -/
inductive Chunks : Bool → List Char → List Chunk → Prop
  | nil {place : Bool} : Chunks place [] []
  | quote {place : Bool} {s : List Char} {cs : List Chunk} (h : Chunks false s cs) :
      Chunks place ('\'' :: '\'' :: '\'' :: s) (.copied M4.quoteLiteral :: cs)
  | literal {place : Bool} {q : Char} {t s : List Char} {cs : List Chunk}
      (hq : isQuote q = true) (hclosed : Closed q t)
      (hquote : ¬ M4.quoteLiteral <+: q :: (t ++ s)) (h : Chunks false s cs) :
      Chunks place (q :: (t ++ s)) (.copied (q :: t) :: cs)
  | stray {place : Bool} {q : Char} {t : List Char} (hq : isQuote q = true)
      (hunclosed : M4.Unclosed q t) : Chunks place (q :: t) [.copied (q :: t)]
  | marks {place : Bool} {c : Char} {t s : List Char} {cs : List Chunk}
      (hmarks : ∀ d ∈ c :: t, isMark d = true) (hs : ∀ d ∈ s.head?, isMark d = false)
      (h : Chunks (place && (c :: t).all isLabelGap) s cs) :
      Chunks place (c :: (t ++ s)) (.copied (c :: t) :: cs)
  | define {n s : List Char} {cs : List Chunk} (hn : IsNumber n)
      (h : Chunks true (':' :: s) cs) : Chunks true (n ++ ':' :: s) (.define n :: cs)
  | back {place : Bool} {n s : List Char} {cs : List Chunk} (hn : IsNumber n)
      (hs : ∀ d ∈ s.head?, isWordChar d = false) (h : Chunks false s cs) :
      Chunks place (n ++ 'b' :: s) (.back n :: cs)
  | forward {place : Bool} {n s : List Char} {cs : List Chunk} (hn : IsNumber n)
      (hs : ∀ d ∈ s.head?, isWordChar d = false) (h : Chunks false s cs) :
      Chunks place (n ++ 'f' :: s) (.forward n :: cs)
  | word {place : Bool} {w s : List Char} {cs : List Chunk}
      (hw : w ≠ [] ∧ ∀ d ∈ w, isWordChar d = true) (hs : ∀ d ∈ s.head?, isWordChar d = false)
      (hdefine : ¬ (place = true ∧ s.head? = some ':' ∧ IsNumber w))
      (hreference : ∀ n, IsNumber n → w ≠ n ++ ['b'] ∧ w ≠ n ++ ['f'])
      (h : Chunks (place && decide (s.head? = some ':')) s cs) :
      Chunks place (w ++ s) (.copied w :: cs)

/-- The chunks of each line of a text. -/
def SourceChunks (text : List Char) (css : List (List Chunk)) : Prop :=
  List.Forall₂ (Chunks true) (text.splitOn '\n') css

def Chunk.text : Chunk → List Char
  | .copied text => text
  | .define n => n
  | .back n => n ++ ['b']
  | .forward n => n ++ ['f']

theorem Chunks.eq_flatMap {place : Bool} {s : List Char} {cs : List Chunk}
    (h : Chunks place s cs) : s = cs.flatMap Chunk.text := by
  induction h with
  | nil => rfl
  | quote h ih => simp [Chunk.text, M4.quoteLiteral, ← ih]
  | stray => simp [Chunk.text]
  | _ => simp_all [Chunk.text]

section Scan

variable {place : Bool} {c : Char} {t s n : List Char}

theorem isWordChar_of_isDigit {d : Char} (hd : d.isDigit = true) : isWordChar d = true := by
  simp [isWordChar, Char.isAlphanum, hd]

theorem isQuote_of_isWordChar {d : Char} (hd : isWordChar d = true) : isQuote d = false := by
  by_contra hquote
  simp only [isQuote, Bool.not_eq_false, Bool.or_eq_true, decide_eq_true_eq] at hquote
  rcases hquote with rfl | rfl <;> exact absurd hd (by decide)

theorem exists_chunks (place : Bool) (s : List Char) (hline : '\n' ∉ s) :
    ∃ cs, Chunks place s cs := by
  induction hn : s.length using Nat.strong_induction_on generalizing place s with
  | _ n ih =>
      subst hn
      cases s with
      | nil => exact ⟨[], .nil⟩
      | cons c s =>
          have hrest (place : Bool) {t r : List Char} (hs : s = t ++ r) :
              ∃ cs, Chunks place r cs :=
            ih r.length (by simp [hs]) place r (fun hmem => hline (by simp [hs, hmem])) rfl
          by_cases hq : isQuote c = true
          · by_cases hquote : M4.quoteLiteral <+: c :: s
            · obtain ⟨r, hr⟩ := hquote
              obtain ⟨rfl, rfl⟩ := List.cons.inj hr.symm
              obtain ⟨cs, h⟩ := hrest false (t := ['\'', '\'']) (r := r) rfl
              exact ⟨_, .quote h⟩
            · obtain ⟨t, r, rfl, -, hclosed | ⟨hunclosed, hr⟩⟩ := M4.exists_quoted c s
              · obtain ⟨cs, h⟩ := hrest false rfl
                exact ⟨_, .literal hq hclosed hquote h⟩
              · obtain rfl : r = [] := by
                  cases r with
                  | nil => rfl
                  | cons d r => exact absurd (by simp [hr d rfl]) hline
                rw [List.append_nil]
                exact ⟨_, .stray hq hunclosed⟩
          by_cases hword : isWordChar c = true
          · have hsplit := List.takeWhile_append_dropWhile (p := isWordChar) (l := s)
            have hmem : ∀ d ∈ c :: s.takeWhile isWordChar, isWordChar d = true :=
              List.forall_mem_cons.2 ⟨hword, fun d hd => List.mem_takeWhile_imp hd⟩
            have hend : ∀ d ∈ (s.dropWhile isWordChar).head?, isWordChar d = false := by
              intro d hd
              have hhead := List.head?_dropWhile_not isWordChar s
              rw [Option.mem_def.1 hd] at hhead
              exact hhead
            have hnext (place : Bool) := hrest place hsplit.symm
            generalize s.takeWhile isWordChar = w at *
            generalize s.dropWhile isWordChar = r at *
            subst hsplit
            rw [← List.cons_append]
            by_cases hdefine : place = true ∧ r.head? = some ':' ∧ IsNumber (c :: w)
            · obtain ⟨rfl, hcolon, hnumber⟩ := hdefine
              cases r with
              | nil => cases hcolon
              | cons d r =>
                  obtain rfl := Option.some.inj hcolon
                  obtain ⟨cs, h⟩ := hnext true
                  exact ⟨_, .define hnumber h⟩
            by_cases hback : ∃ n, IsNumber n ∧ c :: w = n ++ ['b']
            · obtain ⟨n, hnumber, heq⟩ := hback
              obtain ⟨cs, h⟩ := hnext false
              rw [heq, List.append_assoc]
              exact ⟨_, .back hnumber hend h⟩
            by_cases hforward : ∃ n, IsNumber n ∧ c :: w = n ++ ['f']
            · obtain ⟨n, hnumber, heq⟩ := hforward
              obtain ⟨cs, h⟩ := hnext false
              rw [heq, List.append_assoc]
              exact ⟨_, .forward hnumber hend h⟩
            obtain ⟨cs, h⟩ := hnext (place && decide (r.head? = some ':'))
            exact ⟨_, .word ⟨by simp, hmem⟩ hend hdefine (fun n hn =>
              ⟨fun heq => hback ⟨n, hn, heq⟩, fun heq => hforward ⟨n, hn, heq⟩⟩) h⟩
          · have hmark : isMark c = true := by simp [isMark, hq, hword]
            have hsplit := List.takeWhile_append_dropWhile (p := isMark) (l := s)
            obtain ⟨cs, h⟩ := hrest (place && (c :: s.takeWhile isMark).all isLabelGap) hsplit.symm
            rw [← hsplit]
            refine ⟨_, .marks (List.forall_mem_cons.2 ⟨hmark, fun d hd =>
              List.mem_takeWhile_imp hd⟩) (fun d hd => ?_) h⟩
            have hhead := List.head?_dropWhile_not isMark s
            rw [Option.mem_def.1 hd] at hhead
            exact hhead

theorem exists_sourceChunks (text : List Char) : ∃ css, SourceChunks text css := by
  have hlines : ∀ line ∈ text.splitOn '\n', '\n' ∉ line := fun _ => Lines.not_mem_of_mem_splitOn
  unfold SourceChunks
  generalize text.splitOn '\n' = lines at hlines
  induction lines with
  | nil => exact ⟨[], .nil⟩
  | cons line lines ih =>
      obtain ⟨hline, hlines⟩ := List.forall_mem_cons.1 hlines
      obtain ⟨cs, h⟩ := exists_chunks true line hline
      obtain ⟨css, hrest⟩ := ih hlines
      exact ⟨cs :: css, .cons h hrest⟩

end Scan

section Scan

variable {place : Bool} {c : Char} {t s n : List Char}

theorem literalTail_closed {q : Char} (hq : isQuote q = true) (h : Closed q t) (s : List Char) :
    M4.literalTail q false (t ++ s) = t.length := by
  have hne : q ≠ '\\' := by
    rintro rfl
    exact absurd hq (by decide)
  induction h with
  | quote => simp [M4.literalTail, hne]
  | escape c ht ih => simp [M4.literalTail, ih]
  | char hquote hescape ht ih => simp [M4.literalTail, hquote, hescape, ih]

theorem literalTail_unclosed {q : Char} (h : M4.Unclosed q t) :
    M4.literalTail q false t = t.length := by
  induction h with
  | nil => rfl
  | backslash => rfl
  | escape c ht ih => simp [M4.literalTail, ih]
  | char hquote hescape ht ih => simp [M4.literalTail, hquote, hescape, ih]

theorem nextChunk_quoted {q : Char} {t s : List Char} (hq : isQuote q = true)
    (ht : M4.literalTail q false (t ++ s) = t.length) :
    nextChunk place q (t ++ s) = (.copied (q :: t), t.length + 1, false) := by
  rw [nextChunk, if_pos hq, ht, List.take_left]
  rfl

theorem nextChunk_marks (hmarks : ∀ d ∈ c :: t, isMark d = true)
    (hs : ∀ d ∈ s.head?, isMark d = false) : nextChunk place c (t ++ s) =
      (.copied (c :: t), t.length + 1, place && (c :: t).all isLabelGap) := by
  obtain ⟨hc, ht⟩ := List.forall_mem_cons.1 hmarks
  have hstop := takeWhile_append_of_stop ht hs
  simp only [isMark, Bool.and_eq_true, Bool.not_eq_true'] at hc
  rw [nextChunk, if_neg (by simp [hc.2]), if_pos hc.1, hstop.1]
  rfl

/-- What the pass makes of a word. -/
def wordChunk (place : Bool) (word : List Char) (colon : Bool) : Chunk × Nat × Bool :=
  let reference : Bool := !word.dropLast.isEmpty && word.dropLast.all Char.isDigit
  if place && colon && word.all Char.isDigit then (.define word, word.length, place)
  else if reference && word.getLast? = some 'b' then (.back word.dropLast, word.length, false)
  else if reference && word.getLast? = some 'f' then (.forward word.dropLast, word.length, false)
  else (.copied word, word.length, place && colon)

theorem nextChunk_word (hword : ∀ d ∈ c :: t, isWordChar d = true)
    (hs : ∀ d ∈ s.head?, isWordChar d = false) :
    nextChunk place c (t ++ s) = wordChunk place (c :: t) (s.head? = some ':') := by
  obtain ⟨hc, ht⟩ := List.forall_mem_cons.1 hword
  have hstop := takeWhile_append_of_stop ht hs
  rw [nextChunk, if_neg (by simp [isQuote_of_isWordChar hc]), if_neg (by simp [hc]), hstop.1,
    hstop.2]
  rfl

theorem not_isDigit_reference {d : Char} (hd : d = 'b' ∨ d = 'f') : d.isDigit = false := by
  rcases hd with rfl | rfl <;> decide

theorem wordChunk_define (hn : IsNumber n) :
    wordChunk true n true = (.define n, n.length, true) := by
  rw [wordChunk, if_pos (by simpa using hn.2)]

theorem wordChunk_reference (hn : IsNumber n) (colon : Bool) :
    wordChunk place (n ++ ['b']) colon = (.back n, n.length + 1, false) ∧
      wordChunk place (n ++ ['f']) colon = (.forward n, n.length + 1, false) := by
  have hdigits : (!n.isEmpty && n.all Char.isDigit) = true := by
    simpa [IsNumber, List.isEmpty_iff] using hn
  constructor
  · rw [wordChunk, if_neg (by simp [not_isDigit_reference])]
    simp only [List.dropLast_concat, List.getLast?_concat, hdigits, List.length_append]
    rfl
  · rw [wordChunk, if_neg (by simp [not_isDigit_reference])]
    simp only [List.dropLast_concat, List.getLast?_concat, hdigits, List.length_append]
    rfl

theorem wordChunk_word {w : List Char} {colon : Bool} (hne : w ≠ [])
    (hdefine : ¬ (place = true ∧ colon = true ∧ IsNumber w))
    (hreference : ∀ n, IsNumber n → w ≠ n ++ ['b'] ∧ w ≠ n ++ ['f']) :
    wordChunk place w colon = (.copied w, w.length, place && colon) := by
  have hnumber : ¬ (place && colon && w.all Char.isDigit) = true := by
    intro h
    simp only [Bool.and_eq_true, List.all_eq_true] at h
    exact hdefine ⟨h.1.1, h.1.2, hne, h.2⟩
  have hlast {d : Char} (hd : w ≠ w.dropLast ++ [d] ∨
      ¬ (!w.dropLast.isEmpty && w.dropLast.all Char.isDigit) = true) :
      ¬ ((!w.dropLast.isEmpty && w.dropLast.all Char.isDigit) && w.getLast? = some d) = true := by
    intro h
    rw [Bool.and_eq_true, decide_eq_true_eq] at h
    rcases hd with hd | hd
    · exact hd (List.dropLast_append_getLast? d h.2).symm
    · exact hd h.1
  have hdigits (h : (!w.dropLast.isEmpty && w.dropLast.all Char.isDigit) = true) :
      IsNumber w.dropLast := by
    simpa [IsNumber, List.isEmpty_iff] using h
  have hd {d : Char} (h : IsNumber w.dropLast → w ≠ w.dropLast ++ [d]) :
      w ≠ w.dropLast ++ [d] ∨ ¬ (!w.dropLast.isEmpty && w.dropLast.all Char.isDigit) = true :=
    or_iff_not_imp_right.2 fun hnot => h (hdigits (not_not.1 hnot))
  rw [wordChunk, if_neg hnumber, if_neg (hlast (hd fun h => (hreference _ h).1)),
    if_neg (hlast (hd fun h => (hreference _ h).2))]

end Scan

section Run

variable {place : Bool} {c : Char} {t s n : List Char} {line : Nat} {st : Labels}

/-- What the pass writes for the chunks of a line. -/
def nameChunks (line : Nat) : List Chunk → Labels → Except EmuError (Labels × List (List Char))
  | [], st => .ok (st, [])
  | c :: cs, st => do
      let (st, text) ← st.name line c
      let (st, pieces) ← nameChunks line cs st
      return (st, text :: pieces)

theorem nameLine_skip (t s : List Char) (st : Labels) :
    nameLine line place t.length (t ++ s) st = nameLine line place 0 s st := by
  induction t with
  | nil => rfl
  | cons c t ih => rw [List.length_cons, List.cons_append, nameLine, ih]

/-- One turn of the pass over a line. -/
theorem nameLine_chunk {chunk : Chunk} {place' : Bool} {cs : List Chunk}
    (hnext : nextChunk place c (t ++ s) = (chunk, t.length + 1, place'))
    (hrest : ∀ st, nameLine line place' 0 s st = nameChunks line cs st) :
    nameLine line place 0 (c :: (t ++ s)) st = nameChunks line (chunk :: cs) st := by
  rw [nameLine, hnext, nameChunks]
  simp only [Nat.add_sub_cancel, nameLine_skip, hrest]

theorem nameLine_word {w : List Char} {chunk : Chunk} {place' : Bool} {cs : List Chunk}
    (hw : w ≠ [] ∧ ∀ d ∈ w, isWordChar d = true) (hs : ∀ d ∈ s.head?, isWordChar d = false)
    (hchunk : wordChunk place w (s.head? = some ':') = (chunk, w.length, place'))
    (hrest : ∀ st, nameLine line place' 0 s st = nameChunks line cs st) :
    nameLine line place 0 (w ++ s) st = nameChunks line (chunk :: cs) st := by
  obtain ⟨c, t, rfl⟩ := List.exists_cons_of_ne_nil hw.1
  exact nameLine_chunk ((nextChunk_word hw.2 hs).trans hchunk) hrest

theorem IsNumber.isWordChar (hn : IsNumber n) {w : List Char}
    (hw : ∀ d ∈ w, LocalLabels.isWordChar d = true) :
    n ++ w ≠ [] ∧ ∀ d ∈ n ++ w, LocalLabels.isWordChar d = true := by
  refine ⟨fun h => hn.1 (List.append_eq_nil_iff.1 h).1, fun d hd => ?_⟩
  rcases List.mem_append.1 hd with hd | hd
  · exact isWordChar_of_isDigit (hn.2 d hd)
  · exact hw d hd

/-- The pass sees the chunks of a line that has no literal of a quote. -/
theorem Chunks.nameLine_eq {cs : List Chunk} (h : Chunks place s cs)
    (hquote : .copied M4.quoteLiteral ∉ cs) :
    nameLine line place 0 s st = nameChunks line cs st := by
  induction h generalizing st with
  | nil => simp [nameLine, nameChunks]
  | quote h ih => exact absurd List.mem_cons_self hquote
  | literal hq hclosed _ h ih =>
      exact nameLine_chunk (nextChunk_quoted hq (literalTail_closed hq hclosed _)) fun st =>
        ih (fun hmem => hquote (List.mem_cons_of_mem _ hmem))
  | @stray place q t hq hunclosed =>
      have hnext : nextChunk place q (t ++ []) = (.copied (q :: t), t.length + 1, false) :=
        nextChunk_quoted hq (by rw [List.append_nil, literalTail_unclosed hunclosed])
      have hline : nameLine line place 0 (q :: (t ++ [])) st =
          nameChunks line [.copied (q :: t)] st :=
        nameLine_chunk hnext fun st => by simp [nameLine, nameChunks]
      rwa [List.append_nil] at hline
  | marks hmarks hs h ih =>
      exact nameLine_chunk (nextChunk_marks hmarks hs) fun st =>
        ih (fun hmem => hquote (List.mem_cons_of_mem _ hmem))
  | @define n s cs hn h ih =>
      have hcolon : ∀ d ∈ (':' :: s).head?, isWordChar d = false := by
        rintro d ⟨⟩
        decide
      have hword := hn.isWordChar (w := []) (by simp)
      rw [List.append_nil] at hword
      exact nameLine_word hword hcolon (wordChunk_define hn) fun st =>
        ih (fun hmem => hquote (List.mem_cons_of_mem _ hmem))
  | @back place n s cs hn hs h ih =>
      have hchunk := (@wordChunk_reference place n hn (s.head? = some ':')).1
      rw [← List.singleton_append, ← List.append_assoc]
      refine nameLine_word (hn.isWordChar (by simp [isWordChar])) hs (hchunk.trans ?_) fun st =>
        ih (fun hmem => hquote (List.mem_cons_of_mem _ hmem))
      rw [List.length_append]
      rfl
  | @forward place n s cs hn hs h ih =>
      have hchunk := (@wordChunk_reference place n hn (s.head? = some ':')).2
      rw [← List.singleton_append, ← List.append_assoc]
      refine nameLine_word (hn.isWordChar (by simp [isWordChar])) hs (hchunk.trans ?_) fun st =>
        ih (fun hmem => hquote (List.mem_cons_of_mem _ hmem))
      rw [List.length_append]
      rfl
  | @word place w s cs hw hs hdefine hreference h ih =>
      refine nameLine_word hw hs (wordChunk_word hw.1 ?_ hreference) fun st =>
        ih (fun hmem => hquote (List.mem_cons_of_mem _ hmem))
      simpa using hdefine

end Run

section Naming

variable {n m : List Char} {k j line : Nat} {st st' : Labels} {before items : List (Nat × Chunk)}

theorem labelName_inj (hn : IsNumber n) (hm : IsNumber m) (h : labelName n k = labelName m j) :
    n = m ∧ k = j := by
  have hsplit (n : List Char) (k : Nat) : labelName n k =
      '.' :: 'L' :: (n ++ '_' :: 'f' :: 'b' :: Nat.toDigits 10 k) := by
    simp [labelName]
  have hstop (n : List Char) (k : Nat) (hn : IsNumber n) :=
    @takeWhile_append_of_stop _ Char.isDigit n ('_' :: 'f' :: 'b' :: Nat.toDigits 10 k) hn.2
      (by simp)
  rw [hsplit, hsplit] at h
  have htail := (List.cons.inj (List.cons.inj h).2).2
  have hnumber : n = m := by
    rw [← (hstop n k hn).1, htail, (hstop m j hm).1]
  refine ⟨hnumber, ?_⟩
  subst hnumber
  have hdigits : Nat.toDigits 10 k = Nat.toDigits 10 j := by
    simpa using htail
  have hvalue := congrArg (fun digits => Nat.ofDigitChars 10 digits 0) hdigits
  simpa [Nat.ofDigitChars_toDigits] using hvalue

theorem count_setCount (seen : List (List Char × Nat)) (n m : List Char) (k : Nat) :
    count (setCount n k seen) m = if m = n then k else count seen m := by
  induction seen with
  | nil => by_cases h : n = m <;> simp [setCount, count, h, eq_comm]
  | cons e seen ih =>
      rw [setCount]
      by_cases he : e.1 = n
      · rw [if_pos he]
        by_cases hm : m = n
        · simp [count, he, hm]
        · simp [count, he, hm, Ne.symm hm]
      · rw [if_neg he]
        by_cases hm : e.1 = m
        · have hmn : m ≠ n := fun heq => he (hm.trans heq)
          simp [count, hm, hmn]
        · unfold count at ih ⊢
          simpa [List.find?_cons_of_neg, hm] using ih

/-- How many definitions of a number there are. -/
def definitions (n : List Char) (cs : List Chunk) : Nat := cs.count (.define n)

/-- The text a chunk gets behind the chunks before it. -/
def nameOf (before : List Chunk) : Chunk → List Char
  | .copied text => text
  | .define n => labelName n (definitions n before + 1)
  | .back n => labelName n (definitions n before)
  | .forward n => labelName n (definitions n before + 1)

/-- The counts and the forward references of the chunks seen so far. -/
structure Tracks (before : List (Nat × Chunk)) (st : Labels) : Prop where
  seen : ∀ n, count st.seen n = definitions n (before.map Prod.snd)
  forward : ∀ n k line, (n, k, line) ∈ st.forward ↔ ∃ i, before[i]? = some (line, .forward n) ∧
    k = definitions n ((before.map Prod.snd).take i) + 1

theorem definitions_concat (n : List Char) (before : List Chunk) (c : Chunk) :
    definitions n (before ++ [c]) = definitions n before + if c = .define n then 1 else 0 := by
  simp [definitions, List.count_singleton]

theorem getElem?_concat_eq_some {α : Type*} {xs : List α} {x y : α} {i : Nat} :
    (xs ++ [x])[i]? = some y ↔ xs[i]? = some y ∨ i = xs.length ∧ x = y := by
  rcases Nat.lt_trichotomy i xs.length with h | rfl | h
  · simp [List.getElem?_append_left h, Nat.ne_of_lt h]
  · simp
  · have hnone : xs[i]? = none := by simp; omega
    rw [List.getElem?_append_right (by omega), hnone]
    have hone : [x][i - xs.length]? = none := by simp; omega
    simp [hone, Nat.ne_of_gt h]

/-- One chunk: its text, and what is tracked after it. -/
theorem Tracks.name {c : Chunk} {text : List Char} (h : Tracks before st)
    (hname : st.name line c = .ok (st', text)) :
    Tracks (before ++ [(line, c)]) st' ∧ text = nameOf (before.map Prod.snd) c ∧
      ∀ n, c = .back n → 0 < definitions n (before.map Prod.snd) := by
  have htake (i : Nat) (hi : i ≤ before.length) :
      ((before ++ [(line, c)]).map Prod.snd).take i = (before.map Prod.snd).take i := by
    rw [List.map_append, List.take_append_of_le_length (by simpa using hi)]
  have hforward (hc : ∀ n, c ≠ .forward n) (n : List Char) (k line' : Nat) :
      (∃ i, before[i]? = some (line', .forward n) ∧
        k = definitions n ((before.map Prod.snd).take i) + 1) ↔
      ∃ i, (before ++ [(line, c)])[i]? = some (line', .forward n) ∧
        k = definitions n (((before ++ [(line, c)]).map Prod.snd).take i) + 1 := by
    constructor
    · rintro ⟨i, hi, hk⟩
      have hlt := (List.getElem?_eq_some_iff.1 hi).1
      exact ⟨i, getElem?_concat_eq_some.2 (Or.inl hi), by rw [htake i (by omega), hk]⟩
    · rintro ⟨i, hi, hk⟩
      rcases getElem?_concat_eq_some.1 hi with hi | ⟨-, heq⟩
      · have hlt := (List.getElem?_eq_some_iff.1 hi).1
        exact ⟨i, hi, by rw [hk, htake i (by omega)]⟩
      · exact absurd (Prod.mk.inj heq).2 (hc n)
  have hseen (hc : ∀ n, c ≠ .define n) (n : List Char) : count st.seen n =
      definitions n ((before ++ [(line, c)]).map Prod.snd) := by
    rw [List.map_append, List.map_singleton, definitions_concat, if_neg (hc n), h.seen]
    rfl
  cases c with
  | copied t =>
      obtain ⟨rfl, rfl⟩ := Prod.mk.inj (Except.ok.inj hname)
      exact ⟨⟨hseen (by simp), fun n k l => (h.forward n k l).trans (hforward (by simp) n k l)⟩,
        rfl, by simp⟩
  | define n =>
      obtain ⟨rfl, rfl⟩ := Prod.mk.inj (Except.ok.inj hname)
      refine ⟨⟨fun m => ?_, fun n k l => (h.forward n k l).trans (hforward (by simp) n k l)⟩,
        by rw [nameOf, h.seen], by simp⟩
      rw [count_setCount, List.map_append, List.map_singleton, definitions_concat, h.seen, h.seen]
      by_cases hm : m = n
      · simp [hm]
      · simp [hm, Ne.symm hm]
  | back n =>
      simp only [Labels.name] at hname
      split at hname
      · cases hname
      · rename_i hcount
        obtain ⟨rfl, rfl⟩ := Prod.mk.inj (Except.ok.inj hname)
        refine ⟨⟨hseen (by simp), fun n k l => (h.forward n k l).trans (hforward (by simp) n k l)⟩,
          by rw [nameOf, h.seen], ?_⟩
        rintro m heq
        obtain rfl := Chunk.back.inj heq
        rw [← h.seen]
        omega
  | forward n =>
      obtain ⟨rfl, rfl⟩ := Prod.mk.inj (Except.ok.inj hname)
      refine ⟨⟨hseen (by simp), fun m k l => ?_⟩, by rw [nameOf, h.seen], by simp⟩
      rw [List.mem_append, List.mem_singleton, h.forward]
      constructor
      · rintro (⟨i, hi, hk⟩ | heq)
        · have hlt := (List.getElem?_eq_some_iff.1 hi).1
          exact ⟨i, getElem?_concat_eq_some.2 (Or.inl hi), by rw [htake i (by omega), hk]⟩
        · simp only [Prod.mk.injEq] at heq
          obtain ⟨rfl, rfl, rfl⟩ := heq
          refine ⟨before.length, getElem?_concat_eq_some.2 (Or.inr ⟨rfl, rfl⟩), ?_⟩
          rw [htake _ (Nat.le_refl _), List.take_of_length_le (by simp), h.seen]
      · rintro ⟨i, hi, hk⟩
        rcases getElem?_concat_eq_some.1 hi with hi | ⟨rfl, heq⟩
        · have hlt := (List.getElem?_eq_some_iff.1 hi).1
          exact Or.inl ⟨i, hi, by rw [hk, htake i (by omega)]⟩
        · obtain ⟨rfl, hsame⟩ := Prod.mk.inj heq
          obtain rfl := Chunk.forward.inj hsame
          refine Or.inr ?_
          rw [hk, htake _ (Nat.le_refl _), List.take_of_length_le (by simp), h.seen]

/-- A chunk the pass refuses is a backward reference with nothing above it. -/
theorem Tracks.name_error {c : Chunk} {e : EmuError} (h : Tracks before st)
    (hname : st.name line c = .error e) :
    ∃ n, c = .back n ∧ definitions n (before.map Prod.snd) = 0 ∧ e = unknownBackward n line := by
  cases c with
  | copied t => cases hname
  | define n => cases hname
  | forward n => cases hname
  | back n =>
      simp only [Labels.name] at hname
      split at hname
      · rename_i hcount
        exact ⟨n, rfl, by rw [← h.seen, hcount], (Except.error.inj hname).symm⟩
      · cases hname

end Naming

section Source

variable {line : Nat} {st st' : Labels} {before items : List (Nat × Chunk)}

/-- The chunks of a text, each with its line. -/
def numbered : Nat → List (List Chunk) → List (Nat × Chunk)
  | _, [] => []
  | line, cs :: css => cs.map (line, ·) ++ numbered (line + 1) css

theorem map_snd_numbered (line : Nat) (css : List (List Chunk)) :
    (numbered line css).map Prod.snd = css.flatten := by
  induction css generalizing line with
  | nil => rfl
  | cons cs css ih => simp [numbered, ih]

/-- The pass over the chunks of a whole text. -/
def nameItems : List (Nat × Chunk) → Labels → Except EmuError (Labels × List (List Char))
  | [], st => .ok (st, [])
  | (line, c) :: items, st => do
      let (st, text) ← st.name line c
      let (st, pieces) ← nameItems items st
      return (st, text :: pieces)

theorem nameItems_append (cs : List Chunk) (items : List (Nat × Chunk)) :
    nameItems (cs.map (line, ·) ++ items) st = nameChunks line cs st >>= fun r =>
      nameItems items r.1 >>= fun r' => pure (r'.1, r.2 ++ r'.2) := by
  induction cs generalizing st with
  | nil =>
      rw [List.map_nil, List.nil_append]
      change nameItems items st = (nameItems items st >>= fun r' => pure (r'.1, [] ++ r'.2))
      cases nameItems items st <;> rfl
  | cons c cs ih =>
      rw [List.map_cons, List.cons_append, nameItems, nameChunks]
      cases st.name line c with
      | error e => rfl
      | ok r =>
          change (nameItems (cs.map (line, ·) ++ items) r.1 >>= fun r' =>
            pure (r'.1, r.2 :: r'.2)) = _
          rw [ih]
          change _ = ((nameChunks line cs r.1 >>= fun r' => pure (r'.1, r.2 :: r'.2)) >>= _)
          cases nameChunks line cs r.1 with
          | error e => rfl
          | ok r =>
              change ((nameItems items r.1 >>= fun r' => pure (r'.1, r.2 ++ r'.2)) >>= _) =
                (nameItems items r.1 >>= _)
              cases nameItems items r.1 <;> rfl

/-- No literal of a quote in any line. -/
def QuoteFree (css : List (List Chunk)) : Prop := ∀ cs ∈ css, .copied M4.quoteLiteral ∉ cs

theorem length_nameChunks {cs : List Chunk} {pieces : List (List Char)}
    (h : nameChunks line cs st = .ok (st', pieces)) : pieces.length = cs.length := by
  induction cs generalizing st st' pieces with
  | nil =>
      obtain ⟨-, rfl⟩ := Prod.mk.inj (Except.ok.inj h)
      rfl
  | cons c cs ih =>
      obtain ⟨⟨mid, text⟩, -, h⟩ := bind_eq_ok h
      obtain ⟨⟨last, more⟩, hmore, hret⟩ := bind_eq_ok h
      obtain ⟨-, rfl⟩ := Prod.mk.inj (Except.ok.inj hret)
      rw [List.length_cons, ih hmore, List.length_cons]

/-- The pass over the lines is the pass over their chunks. -/
theorem nameLines_eq {lines : List (List Char)} {css : List (List Chunk)}
    (h : List.Forall₂ (Chunks true) lines css) (hquote : QuoteFree css) :
    (nameLines line lines st).map (fun r => (r.1, r.2.flatten)) =
        nameItems (numbered line css) st ∧
      ∀ st' outs, nameLines line lines st = .ok (st', outs) →
        outs.map List.length = css.map List.length := by
  induction h generalizing line st with
  | nil =>
      refine ⟨rfl, fun st' outs h => ?_⟩
      obtain ⟨-, rfl⟩ := Prod.mk.inj (Except.ok.inj h)
      rfl
  | @cons text cs lines css hchunks h ih =>
      obtain ⟨hline, hrest⟩ := List.forall_mem_cons.1 hquote
      have ih := fun st => @ih (line + 1) st hrest
      rw [nameLines, hchunks.nameLine_eq hline, numbered, nameItems_append]
      cases hname : nameChunks line cs st with
      | error e => exact ⟨rfl, fun st' outs h => nomatch h⟩
      | ok r =>
          obtain ⟨hitems, hlength⟩ := ih r.1
          constructor
          · change Except.map _ (nameLines (line + 1) lines r.1 >>= fun r' =>
              pure (r'.1, r.2 :: r'.2)) = (nameItems (numbered (line + 1) css) r.1 >>= fun r' =>
                pure (r'.1, r.2 ++ r'.2))
            rw [← hitems]
            cases nameLines (line + 1) lines r.1 <;> rfl
          · intro st' outs h
            change (nameLines (line + 1) lines r.1 >>= fun r' => pure (r'.1, r.2 :: r'.2)) = _ at h
            obtain ⟨⟨last, more⟩, hmore, hret⟩ := bind_eq_ok h
            obtain ⟨-, rfl⟩ := Prod.mk.inj (Except.ok.inj hret)
            rw [List.map_cons, List.map_cons, hlength _ _ hmore, length_nameChunks hname]

/-- A run of the pass: each chunk gets its name, and what is tracked is right at the end. -/
theorem Tracks.nameItems {outs : List (List Char)} (h : Tracks before st)
    (hname : LocalLabels.nameItems items st = .ok (st', outs)) :
    Tracks (before ++ items) st' ∧ outs.length = items.length ∧
      ∀ i line c, items[i]? = some (line, c) →
        outs[i]? = some (nameOf ((before ++ items.take i).map Prod.snd) c) ∧
        ∀ n, c = .back n → 0 < definitions n ((before ++ items.take i).map Prod.snd) := by
  induction items generalizing before st outs with
  | nil =>
      obtain ⟨rfl, rfl⟩ := Prod.mk.inj (Except.ok.inj hname)
      simpa using h
  | cons item items ih =>
      obtain ⟨line, c⟩ := item
      obtain ⟨⟨mid, text⟩, hone, hname⟩ := bind_eq_ok hname
      obtain ⟨⟨last, more⟩, hmore, hret⟩ := bind_eq_ok hname
      obtain ⟨rfl, rfl⟩ := Prod.mk.inj (Except.ok.inj hret)
      obtain ⟨hmid, htext, hback⟩ := h.name hone
      obtain ⟨hlast, hlength, hrest⟩ := ih hmid hmore
      rw [List.append_assoc, List.singleton_append] at hlast
      refine ⟨hlast, by rw [List.length_cons, hlength, List.length_cons], fun i l d hi => ?_⟩
      cases i with
      | zero =>
          obtain ⟨rfl, rfl⟩ := Prod.mk.inj (Option.some.inj hi)
          rw [List.take_zero, List.append_nil]
          exact ⟨by rw [← htext]; rfl, hback⟩
      | succ i =>
          have htake := hrest i l d hi
          rwa [List.append_assoc, List.singleton_append] at htake

/-- A run that stops has met a backward reference with nothing above it. -/
theorem Tracks.nameItems_error {e : EmuError} (h : Tracks before st)
    (hname : LocalLabels.nameItems items st = .error e) :
    ∃ i line n, items[i]? = some (line, .back n) ∧
      definitions n ((before ++ items.take i).map Prod.snd) = 0 ∧ e = unknownBackward n line := by
  induction items generalizing before st with
  | nil => cases hname
  | cons item items ih =>
      obtain ⟨line, c⟩ := item
      rw [LocalLabels.nameItems] at hname
      cases hone : st.name line c with
      | error e' =>
          rw [hone] at hname
          obtain rfl : e' = e := Except.error.inj hname
          obtain ⟨n, rfl, hcount, he⟩ := h.name_error hone
          exact ⟨0, line, n, rfl, by simpa using hcount, he⟩
      | ok r =>
          rw [hone] at hname
          obtain ⟨hmid, -, -⟩ := h.name hone
          cases hmore : LocalLabels.nameItems items r.1 with
          | ok r' =>
              change (LocalLabels.nameItems items r.1 >>= _) = _ at hname
              rw [hmore] at hname
              cases hname
          | error e' =>
              change (LocalLabels.nameItems items r.1 >>= _) = _ at hname
              rw [hmore] at hname
              obtain rfl : e' = e := Except.error.inj hname
              obtain ⟨i, l, n, hi, hcount, he⟩ := ih hmid hmore
              refine ⟨i + 1, l, n, hi, ?_, he⟩
              rwa [List.append_assoc, List.singleton_append] at hcount

end Source

section Nearest

variable {cs : List Chunk} {n : List Char} {i j : Nat}

def NearestAbove (cs : List Chunk) (n : List Char) (i j : Nat) : Prop :=
  j < i ∧ cs[j]? = some (.define n) ∧ ∀ k, j < k → k < i → cs[k]? ≠ some (.define n)

def NearestBelow (cs : List Chunk) (n : List Char) (i j : Nat) : Prop :=
  i < j ∧ cs[j]? = some (.define n) ∧ ∀ k, i < k → k < j → cs[k]? ≠ some (.define n)

/-- What each chunk of a text is written as: references as their nearest definitions,
definitions under names of their own, everything else as it stands. -/
structure Resolved (cs : List Chunk) (outs : List (List Char)) : Prop where
  length : outs.length = cs.length
  copied : ∀ (i : Nat) (t : List Char), cs[i]? = some (.copied t) → outs[i]? = some t
  back : ∀ (i : Nat) (n : List Char), cs[i]? = some (.back n) →
    ∃ j, NearestAbove cs n i j ∧ outs[i]? = outs[j]?
  forward : ∀ (i : Nat) (n : List Char), cs[i]? = some (.forward n) →
    ∃ j, NearestBelow cs n i j ∧ outs[i]? = outs[j]?
  distinct : ∀ (i j : Nat) (n m : List Char), cs[i]? = some (.define n) →
    cs[j]? = some (.define m) → outs[i]? = outs[j]? → i = j

/-- No definition is written as a name that the text has. -/
def NoCollision (cs : List Chunk) (outs : List (List Char)) : Prop :=
  ∀ (i : Nat) (n t : List Char), cs[i]? = some (.define n) → .copied t ∈ cs → outs[i]? ≠ some t

/-- The error is that of a reference with no definition, at its line. -/
def Refused (items : List (Nat × Chunk)) (e : EmuError) : Prop :=
  ∃ (i line : Nat) (n : List Char),
    items[i]? = some (line, .back n) ∧ (∀ j, ¬ NearestAbove (items.map Prod.snd) n i j) ∧
        e = unknownBackward n line ∨
      items[i]? = some (line, .forward n) ∧ (∀ j, ¬ NearestBelow (items.map Prod.snd) n i j) ∧
        ∃ k, e = undefinedForward n k line

/-- The text comes back with every chunk of a line written in its place and every reference
as the nearest definition, under a name that is no other. -/
def NamesNearest (text : List Char) (css : List (List Chunk)) : Prop :=
  match nameLocalLabels text with
  | .ok named => ∃ outs, namedPieces text = .ok outs ∧
      named = List.intercalate ['\n'] (outs.map List.flatten) ∧
      outs.map List.length = css.map List.length ∧
      Resolved css.flatten outs.flatten ∧ NoCollision css.flatten outs.flatten
  | .error e => Refused (numbered 1 css) e

theorem namesNearest_of_error {text : List Char} {e : EmuError} (h : namedPieces text = .error e)
    (css : List (List Chunk)) : NamesNearest text css ↔ Refused (numbered 1 css) e := by
  rw [NamesNearest, nameLocalLabels, h]
  rfl

theorem namesNearest_of_ok {text : List Char} {outs : List (List (List Char))}
    (h : namedPieces text = .ok outs) (css : List (List Chunk)) :
    NamesNearest text css ↔ outs.map List.length = css.map List.length ∧
      Resolved css.flatten outs.flatten ∧ NoCollision css.flatten outs.flatten := by
  rw [NamesNearest, nameLocalLabels, h]
  constructor
  · rintro ⟨outs', heq, -, hall⟩
    rwa [Except.ok.inj heq]
  · exact fun hall => ⟨outs, rfl, rfl, hall⟩

/-- No word of the text is the name of one of its definitions. -/
def Fresh (cs : List Chunk) : Prop :=
  ∀ (n : List Char) (k : Nat), 1 ≤ k → k ≤ definitions n cs → .copied (labelName n k) ∉ cs

/-- Some reference has no definition. -/
def Dangling (cs : List Chunk) : Prop :=
  ∃ (i : Nat) (n : List Char), cs[i]? = some (.back n) ∧ (∀ j, ¬ NearestAbove cs n i j) ∨
    cs[i]? = some (.forward n) ∧ ∀ j, ¬ NearestBelow cs n i j

theorem NearestAbove.definitions_pos (h : NearestAbove cs n i j) :
    0 < definitions n (cs.take i) := by
  have hmono := @Occurrences.count_take_mono _ _ (Chunk.define n) cs _ _ (Nat.succ_le_of_lt h.1)
  rw [Nat.succ_eq_add_one, Occurrences.count_take_succ_of_eq h.2.1] at hmono
  exact Nat.lt_of_lt_of_le (Nat.succ_pos _) hmono

theorem exists_nearestAbove (h : 0 < definitions n (cs.take i)) :
    ∃ j, NearestAbove cs n i j ∧ definitions n (cs.take j) + 1 = definitions n (cs.take i) := by
  obtain ⟨j, hji, hj, hnone, hcount⟩ := Occurrences.exists_nearest_before h
  exact ⟨j, ⟨hji, hj, hnone⟩, hcount⟩

theorem exists_nearestBelow {m : List Char} (hi : cs[i]? = some (.forward m))
    (h : definitions n (cs.take i) < definitions n cs) :
    ∃ j, NearestBelow cs n i j ∧ definitions n (cs.take j) = definitions n (cs.take i) := by
  obtain ⟨j, hij, hj, hnone, hcount⟩ := Occurrences.exists_nearest_after h
  refine ⟨j, ⟨Nat.lt_of_le_of_ne hij ?_, hj, fun k hik => hnone k (Nat.le_of_lt hik)⟩, hcount⟩
  rintro rfl
  rw [hi] at hj
  cases hj

theorem NearestBelow.definitions_lt (h : NearestBelow cs n i j) :
    definitions n (cs.take i) < definitions n cs := by
  have hmono := @Occurrences.count_take_mono _ _ (Chunk.define n) cs _ _ (Nat.le_of_lt h.1)
  have hlt := (List.getElem?_eq_some_iff.1 h.2.1).1
  have hlast := @Occurrences.count_take_mono _ _ (Chunk.define n) cs _ _ (Nat.succ_le_of_lt hlt)
  rw [Nat.succ_eq_add_one, Occurrences.count_take_succ_of_eq h.2.1, List.take_length] at hlast
  exact Nat.lt_of_lt_of_le (Nat.lt_succ_of_le hmono) hlast

/-- Where every chunk has its name and every reference its definition, the text is
resolved. -/
theorem resolved_of_names {outs : List (List Char)} (hlength : outs.length = cs.length)
    (hnumbers : ∀ n, .define n ∈ cs → IsNumber n)
    (hnames : ∀ i c, cs[i]? = some c → outs[i]? = some (nameOf (cs.take i) c))
    (hback : ∀ i n, cs[i]? = some (.back n) → 0 < definitions n (cs.take i))
    (hforward : ∀ i n, cs[i]? = some (.forward n) →
      definitions n (cs.take i) < definitions n cs) : Resolved cs outs where
  length := hlength
  copied := fun i t hi => hnames i _ hi
  back := by
    intro i n hi
    obtain ⟨j, hj, hcount⟩ := exists_nearestAbove (hback i n hi)
    refine ⟨j, hj, ?_⟩
    rw [hnames i _ hi, hnames j _ hj.2.1, nameOf, nameOf, hcount]
  forward := by
    intro i n hi
    obtain ⟨j, hj, hcount⟩ := exists_nearestBelow hi (hforward i n hi)
    refine ⟨j, hj, ?_⟩
    rw [hnames i _ hi, hnames j _ hj.2.1, nameOf, nameOf, hcount]
  distinct := by
    intro i j n m hi hj hsame
    rw [hnames i _ hi, hnames j _ hj, Option.some.injEq, nameOf, nameOf] at hsame
    obtain ⟨rfl, hcount⟩ := labelName_inj (hnumbers n (List.mem_of_getElem? hi))
      (hnumbers m (List.mem_of_getElem? hj)) hsame
    exact Occurrences.eq_of_count_take_eq hi hj (Nat.succ.inj hcount)

/-- The names collide with none of the text just when no word of it is one of them. -/
theorem noCollision_iff {outs : List (List Char)}
    (hnames : ∀ i c, cs[i]? = some c → outs[i]? = some (nameOf (cs.take i) c)) :
    NoCollision cs outs ↔ Fresh cs := by
  constructor
  · intro h n k hpos hle hmem
    have hbelow : definitions n (cs.take 0) < k := hpos
    -- the place where the count of definitions reaches `k`
    obtain ⟨i, hi, hcount⟩ : ∃ i, cs[i]? = some (.define n) ∧
        definitions n (cs.take i) + 1 = k := by
      have hreach : ∃ j, k ≤ definitions n (cs.take j) := ⟨cs.length, by rwa [List.take_length]⟩
      have hfind := Nat.find_spec hreach
      have hmin : ∀ m < Nat.find hreach, definitions n (cs.take m) < k := fun m hm =>
        Nat.lt_of_not_le (Nat.find_min hreach hm)
      generalize Nat.find hreach = j at hfind hmin
      cases j with
      | zero => exact absurd hbelow (Nat.not_lt.2 hfind)
      | succ i =>
          have hlt := hmin i (Nat.lt_succ_self i)
          unfold definitions at *
          by_cases hi : cs[i]? = some (.define n)
          · rw [Occurrences.count_take_succ_of_eq hi] at hfind
            exact ⟨i, hi, by omega⟩
          · rw [Occurrences.count_take_succ_of_ne hi] at hfind
            omega
    exact h i n _ hi hmem (by rw [hnames i _ hi, nameOf, hcount])
  · intro h i n t hi hmem hsame
    rw [hnames i _ hi, Option.some.injEq, nameOf] at hsame
    refine h n _ (Nat.succ_pos _) ?_ (hsame ▸ hmem)
    have hlt := (List.getElem?_eq_some_iff.1 hi).1
    have hmono := @Occurrences.count_take_mono _ _ (Chunk.define n) cs _ _ (Nat.succ_le_of_lt hlt)
    rwa [Nat.succ_eq_add_one, Occurrences.count_take_succ_of_eq hi, List.take_length] at hmono

theorem Chunks.isNumber {place : Bool} {s : List Char} (h : Chunks place s cs)
    (hmem : .define n ∈ cs) : IsNumber n := by
  induction h with
  | nil => cases hmem
  | stray => simp at hmem
  | define hn h ih =>
      rcases List.mem_cons.1 hmem with heq | hmem
      · rwa [Chunk.define.inj heq]
      · exact ih hmem
  | _ =>
      rename_i ih
      exact ih (by simpa using hmem)

theorem SourceChunks.isNumber {text : List Char} {css : List (List Chunk)}
    (h : SourceChunks text css) (hmem : .define n ∈ css.flatten) : IsNumber n := by
  unfold SourceChunks at h
  generalize text.splitOn '\n' = lines at h
  induction h with
  | nil => cases hmem
  | cons hchunks h ih =>
      rw [List.flatten_cons] at hmem
      rcases List.mem_append.1 hmem with hmem | hmem
      · exact hchunks.isNumber hmem
      · exact ih hmem

end Nearest

/-- Every text has chunks.  If no literal of a quote is among them, then every reference
names the nearest definition and nothing else is changed just when no word is a name the
pass gives a definition, unless a reference has no definition, which is an error at its
line. -/
theorem nameLocalLabels_nearest (text : List Char) : (∃ css, SourceChunks text css) ∧
    ∀ css, SourceChunks text css → QuoteFree css →
      (NamesNearest text css ↔ Fresh css.flatten ∨ Dangling css.flatten) := by
  refine ⟨exists_sourceChunks text, fun css h hquote => ?_⟩
  obtain ⟨hitems, hlengths⟩ := @nameLines_eq 1 ⟨[], []⟩ _ _ h hquote
  have hstart : Tracks [] ⟨[], []⟩ := ⟨fun n => rfl, by simp⟩
  have hsnd := map_snd_numbered 1 css
  cases hrun : nameLines 1 (text.splitOn '\n') ⟨[], []⟩ with
  | error e =>
      rw [namesNearest_of_error (namedPieces_of_error hrun)]
      rw [hrun] at hitems
      obtain ⟨i, line, n, hi, hcount, rfl⟩ := hstart.nameItems_error hitems.symm
      rw [List.nil_append, List.map_take, hsnd] at hcount
      have hnone : ∀ j, ¬ NearestAbove css.flatten n i j := fun j hj => by
        have hpos := hj.definitions_pos
        omega
      have hchunk : css.flatten[i]? = some (.back n) := by simp [← hsnd, hi]
      exact ⟨fun _ => Or.inr ⟨i, n, Or.inl ⟨hchunk, hnone⟩⟩,
        fun _ => ⟨i, line, n, Or.inl ⟨hi, by rwa [hsnd], rfl⟩⟩⟩
  | ok r =>
      obtain ⟨st, outs⟩ := r
      rw [hrun] at hitems
      obtain ⟨htracks, hlength, hrest⟩ := hstart.nameItems hitems.symm
      rw [List.nil_append] at htracks
      have hlength' : outs.flatten.length = css.flatten.length := by
        rw [← hsnd, List.length_map]
        exact hlength
      have hitem {i : Nat} {c : Chunk} (hi : css.flatten[i]? = some c) :
          ∃ line, (numbered 1 css)[i]? = some (line, c) := by
        rw [← hsnd, List.getElem?_map] at hi
        obtain ⟨⟨line, d⟩, hd, rfl⟩ := Option.map_eq_some_iff.1 hi
        exact ⟨line, hd⟩
      have hnames : ∀ i c, css.flatten[i]? = some c →
          outs.flatten[i]? = some (nameOf (css.flatten.take i) c) := by
        intro i c hi
        obtain ⟨line, hi⟩ := hitem hi
        have hname := (hrest i line c hi).1
        rwa [List.nil_append, List.map_take, hsnd] at hname
      have hback : ∀ i n, css.flatten[i]? = some (.back n) →
          0 < definitions n (css.flatten.take i) := by
        intro i n hi
        obtain ⟨line, hi⟩ := hitem hi
        have hpos := (hrest i line _ hi).2 n rfl
        rwa [List.nil_append, List.map_take, hsnd] at hpos
      cases hfind : st.forward.find? fun e => decide (count st.seen e.1 < e.2.1) with
      | some e =>
          obtain ⟨n, k, line⟩ := e
          rw [namesNearest_of_error (namedPieces_of_missing hrun hfind)]
          have hmissing := List.find?_some hfind
          obtain ⟨i, hi, rfl⟩ := (htracks.forward n k line).1 (List.mem_of_find?_eq_some hfind)
          rw [decide_eq_true_eq, htracks.seen, hsnd] at hmissing
          have hnone : ∀ j, ¬ NearestBelow css.flatten n i j := fun j hj => by
            exact Nat.not_lt.2 (Nat.le_of_lt_succ hmissing) hj.definitions_lt
          have hchunk : css.flatten[i]? = some (.forward n) := by simp [← hsnd, hi]
          exact ⟨fun _ => Or.inr ⟨i, n, Or.inr ⟨hchunk, hnone⟩⟩,
            fun _ => ⟨i, line, n, Or.inr ⟨hi, by rwa [hsnd], _, rfl⟩⟩⟩
      | none =>
          rw [namesNearest_of_ok (namedPieces_of_found hrun hfind)]
          have hforward : ∀ i n, css.flatten[i]? = some (.forward n) →
              definitions n (css.flatten.take i) < definitions n css.flatten := by
            intro i n hi
            obtain ⟨line, hi⟩ := hitem hi
            have hmem := (htracks.forward n _ line).2 ⟨i, hi, rfl⟩
            have hdefined := List.find?_eq_none.1 hfind _ hmem
            rw [decide_eq_true_eq, htracks.seen, hsnd] at hdefined
            exact Nat.lt_of_succ_le (Nat.le_of_not_lt hdefined)
          have hresolved := resolved_of_names hlength' (fun n hmem => h.isNumber hmem) hnames hback
            hforward
          have hdangling : ¬ Dangling css.flatten := by
            rintro ⟨i, n, ⟨hi, hnone⟩ | ⟨hi, hnone⟩⟩
            · obtain ⟨j, hj, -⟩ := hresolved.back i n hi
              exact hnone j hj
            · obtain ⟨j, hj, -⟩ := hresolved.forward i n hi
              exact hnone j hj
          rw [or_iff_left hdangling, ← noCollision_iff hnames]
          exact ⟨fun hall => hall.2.2, fun hfree => ⟨hlengths st outs hrun, hresolved, hfree⟩⟩

/-- A label of a program's own with the name of the first definition of `1`. -/
def ownLabel : List Char := ['.', 'L', '1', '_', 'f', 'b', '1']

def collidingSource : List Char := ['1', ':', '\n'] ++ ownLabel ++ [':']

theorem collidingSource_chunks : SourceChunks collidingSource
    [[.define ['1'], .copied [':']], [.copied ownLabel, .copied [':']]] := by
  have hlines : collidingSource.splitOn '\n' = [['1', ':'], ownLabel ++ [':']] := by decide
  have hcolon : Chunks true [':'] [.copied [':']] :=
    .marks (c := ':') (t := []) (s := []) (List.all_eq_true.1 (by decide)) (by simp) .nil
  have hnumber : IsNumber ['1'] := ⟨List.cons_ne_nil _ _, by simp⟩
  have hdot : ¬ IsNumber ownLabel := fun h =>
    absurd (h.2 '.' List.mem_cons_self) (by decide)
  have hreference (n : List Char) {d : Char} (hd : d ≠ '1') : ownLabel ≠ n ++ [d] := by
    intro h
    have hlast := congrArg List.getLast? h
    rw [List.getLast?_concat] at hlast
    exact hd (Option.some.inj hlast).symm
  rw [SourceChunks, hlines]
  refine .cons (.define hnumber hcolon) (.cons (.word ?_ ?_ (fun h => hdot h.2.2)
    (fun n _ => ⟨hreference n (by decide), hreference n (by decide)⟩) hcolon) .nil)
  · exact ⟨List.cons_ne_nil _ _, List.all_eq_true.1 (by decide)⟩
  · rintro d ⟨⟩
    decide

/-- The pass gives the first definition of `1` the name of a label of the program's own. -/
theorem not_namesNearest : ¬ ∀ css, SourceChunks collidingSource css →
    NamesNearest collidingSource css := by
  intro hall
  have hnearest := hall _ collidingSource_chunks
  have hpieces : namedPieces collidingSource =
      .ok [[ownLabel, [':']], [ownLabel, [':']]] := by decide
  rw [namesNearest_of_ok hpieces] at hnearest
  exact hnearest.2.2 0 ['1'] ownLabel rfl (by simp) rfl

end LocalLabels

end Playground
