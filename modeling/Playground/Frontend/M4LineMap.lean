/-
An accepted expansion is a fixed point of its own rounds, line by line, under the bindings
of the source line it came from, and its line map and its bindings say which those are.
-/
import Playground.Library.Lines
import Playground.Frontend.M4Expand
import Playground.Frontend.M4Rounds
import Playground.Frontend.Relex

namespace Playground

namespace M4

section
variable (defines : Macros)

/-- What a round without a cap makes of a line; `none` where a call is not closed. -/
def roundText (line : List Char) : Option (List Char) :=
  if (pieces defines false 0 line).2 = none then
    some (written (lineWrites defines false 0 line))
  else none

variable {defines}

variable {line after name : List Char}

theorem lineWrites_of_read (h : (pieces defines false 0 line).2 = none) :
    lineWrites defines false 0 line = (pieces defines false 0 line).1.flatMap Piece.writes := by
  simp [lineWrites, h]

@[simp] theorem roundText_nil : roundText defines [] = some [] := rfl

/-- A round over a line is its first turn and a round over the rest. -/
theorem roundText_cons {c : Char} {text : List Char} {piece : Piece}
    (h : nextPiece defines false c (text ++ after) = .ok (piece, text.length + 1)) :
    roundText defines (c :: (text ++ after)) =
      (roundText defines after).map (written piece.writes ++ ·) := by
  have hpieces := pieces_cons h
  by_cases hread : (pieces defines false 0 after).2 = none
  · have hall : (pieces defines false 0 (c :: (text ++ after))).2 = none := by
      rw [hpieces]
      exact hread
    rw [roundText, if_pos hall, roundText, if_pos hread, lineWrites_of_read hall,
      lineWrites_of_read hread, hpieces]
    simp
  · have hall : ¬ (pieces defines false 0 (c :: (text ++ after))).2 = none := by
      rw [hpieces]
      exact hread
    rw [roundText, if_neg hall, roundText, if_neg hread]
    rfl

theorem roundText_comment (rest : List Char) :
    roundText defines ('#' :: rest) =
      (roundText defines (rest.dropWhile (· ≠ '\n'))).map
        ('#' :: rest.takeWhile (· ≠ '\n') ++ ·) := by
  have hnext : nextPiece defines false '#' (rest.takeWhile (· ≠ '\n') ++
      rest.dropWhile (· ≠ '\n')) = .ok (.copied ('#' :: rest.takeWhile (· ≠ '\n')),
        (rest.takeWhile (· ≠ '\n')).length + 1) := by
    rw [List.takeWhile_append_dropWhile]
    rfl
  have hround := roundText_cons hnext
  rw [List.takeWhile_append_dropWhile] at hround
  rw [hround]
  simp [Piece.writes]

theorem roundText_run {c : Char} (hcomment : c ≠ '#') (hname : Lexer.isIdStart c = false)
    (rest : List Char) : roundText defines (c :: rest) =
      (roundText defines (rest.dropWhile fun d => !isBoundary d)).map
        (c :: rest.takeWhile (fun d => !isBoundary d) ++ ·) := by
  have hnext : nextPiece defines false c (rest.takeWhile (fun d => !isBoundary d) ++
      rest.dropWhile fun d => !isBoundary d) =
        .ok (.copied (c :: rest.takeWhile fun d => !isBoundary d),
          (rest.takeWhile fun d => !isBoundary d).length + 1) := by
    rw [List.takeWhile_append_dropWhile]
    simp [nextPiece, hcomment, hname]
  have hround := roundText_cons hnext
  rw [List.takeWhile_append_dropWhile] at hround
  rw [hround]
  simp [Piece.writes]

/-- A character that is no name and opens no comment is copied. -/
theorem roundText_plain {c : Char} (hcomment : c ≠ '#') (hname : Lexer.isIdStart c = false)
    (rest : List Char) : roundText defines (c :: rest) =
      (roundText defines rest).map (c :: ·) := by
  rw [roundText_run hcomment hname]
  cases rest with
  | nil => rfl
  | cons d rest =>
      by_cases hboundary : isBoundary d = true
      · simp [hboundary]
      · have hd : d ≠ '#' ∧ Lexer.isIdStart d = false := by
          simp only [isBoundary, Bool.or_eq_true, decide_eq_true_eq, not_or,
            Bool.not_eq_true] at hboundary
          exact ⟨hboundary.1.2, hboundary.2⟩
        rw [roundText_run hd.1 hd.2]
        simp [hboundary, Function.comp_def]

theorem roundText_name {c : Char} {piece : Piece} {used : Nat}
    (hc : Lexer.isIdStart c = true) (hname : ∀ d ∈ name, Lexer.isIdContinue d = true)
    (hafter : ∀ d ∈ after.head?, Lexer.isIdContinue d = false)
    (hpiece : namePiece defines false (c :: name) after = .ok (piece, used))
    {taken rest : List Char} (hsplit : after = taken ++ rest)
    (hused : used = (c :: name).length + taken.length) :
    roundText defines (c :: (name ++ after)) =
      (roundText defines rest).map (written piece.writes ++ ·) := by
  have hcomment : c ≠ '#' := by
    rintro rfl
    exact absurd hc (by decide)
  have htake := Lexer.takeWhile_append_of_stop hname hafter
  have hnext : nextPiece defines false c ((name ++ taken) ++ rest) =
      .ok (piece, (name ++ taken).length + 1) := by
    rw [List.append_assoc, ← hsplit]
    simp only [nextPiece, hcomment, and_false, if_false, hc, if_true, htake.1, htake.2, hpiece]
    simp [hused, Nat.add_right_comm, Nat.add_assoc]
  rw [hsplit, ← List.append_assoc]
  exact roundText_cons hnext

theorem roundText_name_error {c : Char} {stop : Stop}
    (hc : Lexer.isIdStart c = true) (hname : ∀ d ∈ name, Lexer.isIdContinue d = true)
    (hafter : ∀ d ∈ after.head?, Lexer.isIdContinue d = false)
    (hpiece : namePiece defines false (c :: name) after = .error stop) :
    roundText defines (c :: (name ++ after)) = none := by
  have hcomment : c ≠ '#' := by
    rintro rfl
    exact absurd hc (by decide)
  have htake := Lexer.takeWhile_append_of_stop hname hafter
  have hnext : nextPiece defines false c (name ++ after) = .error stop := by
    simp only [nextPiece, hcomment, and_false, if_false, hc, if_true, htake.1, htake.2, hpiece]
    simp
  simp [roundText, pieces, hnext]

theorem closingParenFrom_eq_some {depth : Nat} {s inside : List Char}
    (h : closingParenFrom depth s = some inside) :
    '\n' ∉ inside ∧ ∃ rest, s = inside ++ ')' :: rest := by
  induction s generalizing depth inside with
  | nil => simp [closingParenFrom] at h
  | cons c s ih =>
      have hmore {depth : Nat} {inside : List Char} (hc : c ≠ '\n')
          (h : (closingParenFrom depth s).map (c :: ·) = some inside) :
          '\n' ∉ inside ∧ ∃ rest, c :: s = inside ++ ')' :: rest := by
        obtain ⟨more, hmore, rfl⟩ := Option.map_eq_some_iff.1 h
        obtain ⟨hnewline, rest, rfl⟩ := ih hmore
        exact ⟨by simp [hnewline, Ne.symm hc], rest, rfl⟩
      rw [closingParenFrom] at h
      by_cases hopen : c = '('
      · rw [if_pos hopen] at h
        exact hmore (by rw [hopen]; decide) h
      · rw [if_neg hopen] at h
        by_cases hclose : c = ')'
        · rw [if_pos hclose] at h
          by_cases hdepth : depth - 1 = 0
          · rw [if_pos hdepth] at h
            obtain rfl := Option.some.inj h
            exact ⟨List.not_mem_nil, s, by rw [hclose]; rfl⟩
          · rw [if_neg hdepth] at h
            exact hmore (by rw [hclose]; decide) h
        · rw [if_neg hclose] at h
          by_cases hnewline : c = '\n'
          · simp [hnewline] at h
          · rw [if_neg hnewline] at h
            exact hmore hnewline h

theorem closingParenFrom_append_newline (depth : Nat) (s after : List Char) :
    closingParenFrom depth (s ++ '\n' :: after) = closingParenFrom depth s := by
  induction s generalizing depth with
  | nil => simp [closingParenFrom]
  | cons c s ih => simp only [List.cons_append, closingParenFrom, ih]

theorem closingParen_cons (s : List Char) :
    closingParen ('(' :: s) = closingParenFrom 1 s := by
  simp [closingParen, closingParenFrom, Function.comp_def]

theorem namePiece_append_newline (respectLiterals : Bool) (name s after : List Char) :
    namePiece defines respectLiterals name (s ++ '\n' :: after) =
      namePiece defines respectLiterals name s := by
  have hclose : closingParen (s ++ '\n' :: after) = closingParen s := by
    rw [closingParen, closingParenFrom_append_newline, closingParen]
  cases s with
  | nil => simp [namePiece]
  | cons c s =>
      rw [List.cons_append] at hclose ⊢
      simp only [namePiece, hclose, List.head?_cons]
      rfl

/-- What the piece of a name takes of the text after it: nothing, or a call's arguments. -/
theorem of_namePiece {piece : Piece} {used : Nat}
    (h : namePiece defines false name after = .ok (piece, used)) :
    ∃ taken rest, after = taken ++ rest ∧ used = name.length + taken.length ∧
      '\n' ∉ taken := by
  have hnone (hused : used = name.length) : ∃ taken rest, after = taken ++ rest ∧
      used = name.length + taken.length ∧ '\n' ∉ taken :=
    ⟨[], after, rfl, hused, List.not_mem_nil⟩
  unfold namePiece at h
  cases hbody : defines name with
  | none =>
      simp only [hbody, Except.ok.injEq, Prod.mk.injEq] at h
      exact hnone h.2.symm
  | some body =>
      by_cases hparen : after.head? = some '('
      · obtain ⟨s, rfl⟩ : ∃ s, after = '(' :: s := by
          cases after with
          | nil => simp at hparen
          | cons c s => exact ⟨s, by simpa using hparen⟩
        cases hclose : closingParenFrom 1 s with
        | none => simp [hbody, closingParen_cons, hclose] at h
        | some inside =>
            obtain ⟨hnewline, rest, rfl⟩ := closingParenFrom_eq_some hclose
            refine ⟨'(' :: (inside ++ [')']), rest, by simp, ?_, by simp [hnewline]⟩
            simp only [hbody, closingParen_cons, hclose, Bool.false_eq_true, if_false,
              List.head?_cons, if_true, Except.ok.injEq, Prod.mk.injEq] at h
            simp only [← h.2, List.length_cons, List.length_append, List.length_nil]
            omega
      · simp only [hbody, Bool.false_eq_true, if_false, hparen, Except.ok.injEq,
          Prod.mk.injEq] at h
        exact hnone h.2.symm

theorem exists_name (rest : List Char) : ∃ name after, rest = name ++ after ∧
    (∀ d ∈ name, Lexer.isIdContinue d = true) ∧
      ∀ d ∈ after.head?, Lexer.isIdContinue d = false :=
  ⟨_, _, List.takeWhile_append_dropWhile.symm, fun _ hd => List.mem_takeWhile_imp hd,
    Lexer.head_dropWhile⟩

theorem not_newline_of_idContinue (h : ∀ d ∈ name, Lexer.isIdContinue d = true) : '\n' ∉ name :=
  fun hmem => absurd (h '\n' hmem) (by decide)

theorem roundText_append_newline (line after : List Char) (h : '\n' ∉ line) :
    roundText defines (line ++ '\n' :: after) =
      (roundText defines line).bind fun s => (roundText defines after).map (s ++ '\n' :: ·) := by
  have hnewline : roundText defines ('\n' :: after) =
      (roundText defines after).map ('\n' :: ·) :=
    roundText_plain (by decide) (by decide) after
  induction hlen : line.length using Nat.strong_induction_on generalizing line with
  | _ n ih =>
      cases line with
      | nil => simpa using hnewline
      | cons c rest =>
          have hrest : '\n' ∉ rest := fun hmem => h (List.mem_cons_of_mem c hmem)
          by_cases hc : Lexer.isIdStart c = true
          · obtain ⟨name, tail, rfl, hname, htail⟩ := exists_name rest
            have htail' : ∀ d ∈ (tail ++ '\n' :: after).head?, Lexer.isIdContinue d = false := by
              cases tail with
              | nil => simp [Lexer.isIdContinue]
              | cons d tail => exact htail
            have hpiece := @namePiece_append_newline defines false (c :: name) tail after
            cases hread : namePiece defines false (c :: name) tail with
            | error stop =>
                rw [roundText_name_error hc hname htail hread, List.cons_append,
                  List.append_assoc, roundText_name_error hc hname htail' (hpiece.trans hread)]
                rfl
            | ok read =>
                obtain ⟨piece, used⟩ := read
                obtain ⟨taken, last, rfl, hused, -⟩ := of_namePiece hread
                have hlast : '\n' ∉ last := fun hmem => hrest (by simp [hmem])
                rw [roundText_name hc hname htail hread rfl hused, List.cons_append,
                  List.append_assoc, roundText_name hc hname htail' (hpiece.trans hread)
                    (List.append_assoc _ _ _) hused,
                  ih last.length (by simp at hlen; omega) last hlast rfl]
                cases roundText defines last <;> simp [Function.comp_def]
          · have hc : Lexer.isIdStart c = false := by simpa using hc
            by_cases hcomment : c = '#'
            · subst hcomment
              have hall : ∀ d ∈ rest, decide (d ≠ '\n') = true := fun d hd => by
                simpa using fun heq : d = '\n' => hrest (heq ▸ hd)
              have hstop := @Lexer.takeWhile_append_of_stop _ (· ≠ '\n') rest ('\n' :: after) hall
                (by simp)
              have hline := @Lexer.takeWhile_append_of_stop _ (· ≠ '\n') rest [] hall (by simp)
              rw [List.append_nil] at hline
              rw [List.cons_append, roundText_comment, roundText_comment, hstop.1, hstop.2,
                hline.1, hline.2, hnewline]
              cases roundText defines after <;> simp
            · rw [List.cons_append, roundText_plain hcomment hc, roundText_plain hcomment hc,
                ih rest.length (by simp at hlen; omega) rest hrest rfl]
              cases roundText defines rest <;> simp [Function.comp_def]

/-- A round never joins lines. -/
theorem count_newline_le {next : List Char} (h : roundText defines line = some next) :
    line.count '\n' ≤ next.count '\n' := by
  induction hlen : line.length using Nat.strong_induction_on generalizing line next with
  | _ n ih =>
      cases line with
      | nil =>
          obtain rfl := Option.some.inj h
          exact Nat.le_refl _
      | cons c rest =>
          by_cases hc : Lexer.isIdStart c = true
          · obtain ⟨name, tail, rfl, hname, htail⟩ := exists_name rest
            cases hread : namePiece defines false (c :: name) tail with
            | error stop => simp [roundText_name_error hc hname htail hread] at h
            | ok read =>
                obtain ⟨piece, used⟩ := read
                obtain ⟨taken, last, rfl, hused, htaken⟩ := of_namePiece hread
                rw [roundText_name hc hname htail hread rfl hused] at h
                obtain ⟨more, hmore, rfl⟩ := Option.map_eq_some_iff.1 h
                have hlast := ih last.length (by simp at hlen; omega) hmore rfl
                have hcname : '\n' ∉ c :: name := not_newline_of_idContinue
                  (List.forall_mem_cons.2 ⟨Lexer.isIdContinue_of_isIdStart hc, hname⟩)
                rw [← List.cons_append, List.count_append, List.count_append, List.count_append,
                  List.count_eq_zero_of_not_mem hcname, List.count_eq_zero_of_not_mem htaken]
                omega
          · have hc : Lexer.isIdStart c = false := by simpa using hc
            by_cases hcomment : c = '#'
            · subst hcomment
              rw [roundText_comment] at h
              obtain ⟨more, hmore, rfl⟩ := Option.map_eq_some_iff.1 h
              have hlast := ih (rest.dropWhile (· ≠ '\n')).length (by
                have := List.length_dropWhile_le (· ≠ '\n') rest
                simp at hlen
                omega) hmore rfl
              conv_lhs => rw [← List.takeWhile_append_dropWhile (p := (· ≠ '\n')) (l := rest)]
              rw [← List.cons_append, List.count_append, List.count_append]
              omega
            · rw [roundText_plain hcomment hc] at h
              obtain ⟨more, hmore, rfl⟩ := Option.map_eq_some_iff.1 h
              have hlast := ih rest.length (by simp at hlen; omega) hmore rfl
              rw [List.count_cons, List.count_cons]
              omega

theorem roundText_line (hline : '\n' ∉ line)
    (h : roundText defines (line ++ '\n' :: after) = some (line ++ '\n' :: after)) :
    roundText defines line = some line ∧ roundText defines after = some after := by
  rw [roundText_append_newline line after hline] at h
  obtain ⟨s, hs, hrest⟩ := Option.bind_eq_some_iff.1 h
  obtain ⟨t, ht, heq⟩ := Option.map_eq_some_iff.1 hrest
  have hcount := congrArg (List.count '\n') heq
  have hafter := count_newline_le ht
  simp only [List.count_append, List.count_cons_self,
    List.count_eq_zero_of_not_mem hline] at hcount
  have hs' : '\n' ∉ s := List.count_eq_zero.1 (by omega)
  have hsplit := congrArg (List.splitOn '\n') heq
  rw [List.splitOn_append_cons_self_of_not_mem hs',
    List.splitOn_append_cons_self_of_not_mem hline] at hsplit
  obtain rfl := (List.cons.inj hsplit).1
  obtain rfl : t = after := by simpa using heq
  exact ⟨hs, ht⟩

theorem roundText_splitOn {text : List Char} (h : roundText defines text = some text) :
    ∀ line ∈ text.splitOn '\n', roundText defines line = some line := by
  have hjoined := @List.intercalate_splitOn _ text _ _ '\n'
  have hfree : ∀ line ∈ text.splitOn '\n', '\n' ∉ line := fun _ => Lines.not_mem_of_mem_splitOn
  generalize text.splitOn '\n' = lines at hjoined hfree
  induction lines generalizing text with
  | nil => exact fun _ hmem => absurd hmem List.not_mem_nil
  | cons line lines ih =>
      obtain ⟨hline, hlines⟩ := List.forall_mem_cons.1 hfree
      cases lines with
      | nil =>
          obtain rfl : line = text := by simpa using hjoined
          simpa using h
      | cons next lines =>
          rw [List.intercalate_cons_cons, List.append_assoc, List.singleton_append] at hjoined
          rw [← hjoined] at h
          obtain ⟨hfirst, hrest⟩ := roundText_line hline h
          exact List.forall_mem_cons.2 ⟨hfirst, ih hrest rfl hlines⟩

/-- A line that a round leaves alone goes through it under any cap it fits. -/
theorem substituteBounded_of_roundText (h : roundText defines line = some line) (lineNum : Nat) :
    substituteBounded line defines lineNum = .ok line := by
  by_cases hread : (pieces defines false 0 line).2 = none
  · rw [roundText, if_pos hread, Option.some.injEq] at h
    have hfits : Lexer.utf8Size (written (lineWrites defines false 0 line)) ≤ lineLimit line := by
      rw [h]
      exact Nat.le_max_right _ _
    rw [substituteBounded_eq_ok, substituteOnceGnu_eq_ok, substitutePass_of_fits hread hfits, h]
  · simp [roundText, hread] at h

theorem roundText_of_substituteBounded {next : List Char} {lineNum : Nat}
    (h : substituteBounded line defines lineNum = .ok next) :
    roundText defines line = some next := by
  obtain ⟨rfl, hread⟩ :=
    of_substitutePass_none (substituteOnceGnu_eq_ok.1 (substituteBounded_eq_ok.1 h))
  exact if_pos hread

/-- An expansion ends where a round changes nothing. -/
theorem expandRounds_fixed {lineNum rounds : Nat} {current r : List Char}
    (h : expandRounds defines lineNum rounds current = .ok r) :
    substituteBounded r defines lineNum = .ok r := by
  induction rounds generalizing current with
  | zero =>
      obtain ⟨next, hnext, h⟩ := bind_eq_ok h
      by_cases hsame : next = current
      · obtain rfl : current = r := by simpa [hsame, pure, Except.pure] using h
        rw [hnext, hsame]
      · simp [hsame] at h
  | succ rounds ih =>
      obtain ⟨next, hnext, h⟩ := bind_eq_ok h
      by_cases hsame : next = current
      · obtain rfl : current = r := by simpa [hsame, pure, Except.pure] using h
        rw [hnext, hsame]
      · exact ih (by simpa [hsame] using h)

end

/-- The bindings that the events at or above a line leave, in their order. -/
def bindingsAt (events : List DefineEvent) (line : Nat) : Macros :=
  (events.filter fun e => e.line ≤ line).foldl Macros.apply fun _ => none

section
variable {events : List DefineEvent}

theorem takeEvents_eq (hsorted : events.Pairwise (·.line ≤ ·.line)) (idx : Nat)
    (current : Macros) : takeEvents idx events current =
      ((events.filter fun e => e.line ≤ idx).foldl Macros.apply current,
        events.filter fun e => idx < e.line) := by
  induction events generalizing current with
  | nil => rfl
  | cons e events ih =>
      obtain ⟨hfirst, hrest⟩ := List.pairwise_cons.1 hsorted
      by_cases hbelow : idx < e.line
      · have hall : ∀ d ∈ e :: events, idx < d.line :=
          List.forall_mem_cons.2 ⟨hbelow, fun d hd => lt_of_lt_of_le hbelow (hfirst d hd)⟩
        have hnone : (e :: events).filter (fun d => d.line ≤ idx) = [] :=
          List.filter_eq_nil_iff.2 fun d hd => by simpa using hall d hd
        have hkept : (e :: events).filter (fun d => idx < d.line) = e :: events :=
          List.filter_eq_self.2 fun d hd => by simpa using hall d hd
        rw [takeEvents, if_pos hbelow, hnone, hkept]
        rfl
      · rw [takeEvents, if_neg hbelow, ih hrest]
        simp [hbelow, Nat.le_of_not_lt hbelow]

/-- Events down to a line and then down to a later one are events down to the later. -/
theorem filter_filter_le (hsorted : events.Pairwise (·.line ≤ ·.line)) {idx later : Nat}
    (h : idx ≤ later) : (events.filter fun e => e.line ≤ later) =
      (events.filter fun e => e.line ≤ idx) ++
        (events.filter fun e => idx < e.line).filter fun e => e.line ≤ later := by
  induction events with
  | nil => rfl
  | cons e events ih =>
      obtain ⟨hfirst, hrest⟩ := List.pairwise_cons.1 hsorted
      by_cases hbelow : idx < e.line
      · have hnone : (e :: events).filter (fun d => d.line ≤ idx) = [] :=
          List.filter_eq_nil_iff.2 fun d hd => by
            rcases List.mem_cons.1 hd with rfl | hd
            · simpa using hbelow
            · simpa using lt_of_lt_of_le hbelow (hfirst d hd)
        have hkept : (e :: events).filter (fun d => idx < d.line) = e :: events :=
          List.filter_eq_self.2 fun d hd => by
            rcases List.mem_cons.1 hd with rfl | hd
            · simpa using hbelow
            · simpa using lt_of_lt_of_le hbelow (hfirst d hd)
        rw [hnone, hkept, List.nil_append]
      · have habove : e.line ≤ idx := Nat.le_of_not_lt hbelow
        simp [hbelow, habove, habove.trans h, ih hrest]

end

/-- Every line of the walk is expanded under the events at or above it, and is fixed. -/
theorem substituteLines_spec {stripped : List (Nat × List Char)} {events : List DefineEvent}
    {current : Macros} {total : Nat} {out : List OutputLine}
    (hlines : stripped.Pairwise (·.1 < ·.1)) (hsorted : events.Pairwise (·.line ≤ ·.line))
    (h : substituteLines stripped events current total = .ok out) :
    out.map OutputLine.lineNum = stripped.map (·.1 + 1) ∧
      ∀ o ∈ out, o.bindings =
          (events.filter fun e => e.line < o.lineNum).foldl Macros.apply current ∧
        roundText o.bindings o.text = some o.text := by
  induction stripped generalizing events current total out with
  | nil =>
      obtain rfl : [] = out := by simpa [substituteLines] using h
      exact ⟨rfl, fun _ hmem => absurd hmem List.not_mem_nil⟩
  | cons entry stripped ih =>
      obtain ⟨idx, line⟩ := entry
      obtain ⟨hfirst, hrest⟩ := List.pairwise_cons.1 hlines
      obtain ⟨expanded, more, hline, -, hmore, rfl⟩ := of_substituteLines_cons h
      rw [takeEvents_eq hsorted] at hline hmore ⊢
      obtain ⟨hnums, hout⟩ := ih hrest (hsorted.filter _) hmore
      constructor
      · simp [hnums]
      · rintro o (_ | ⟨_, ho⟩)
        · exact ⟨by simp only [Nat.lt_succ_iff],
            roundText_of_substituteBounded (expandRounds_fixed hline)⟩
        · obtain ⟨hbindings, hfixed⟩ := hout o ho
          have hlater : idx + 1 ≤ o.lineNum := by
            have hmem : o.lineNum ∈ stripped.map (·.1 + 1) :=
              hnums ▸ List.mem_map.2 ⟨o, ho, rfl⟩
            obtain ⟨entry, hentry, heq⟩ := List.mem_map.1 hmem
            have hlt := hfirst entry hentry
            omega
          have hsplit := filter_filter_le hsorted (show idx ≤ o.lineNum - 1 by omega)
          have hlt (e : DefineEvent) : e.line ≤ o.lineNum - 1 ↔ e.line < o.lineNum := by omega
          simp only [hlt] at hsplit
          exact ⟨by rw [hbindings, hsplit, List.foldl_append], hfixed⟩

/-- The first pass drops the lines inside a define, and so never the first. -/
theorem collectFrom_eq_nil_iff {idx : Nat} {lines : List (List Char)} {collected : Collected}
    (h : collectFrom idx 0 lines = .ok collected) : collected.stripped = [] ↔ lines = [] := by
  cases lines with
  | nil =>
      obtain rfl := Except.ok.inj h
      simp
  | cons raw lines =>
      obtain ⟨read, -, h⟩ := bind_eq_ok h
      obtain ⟨more, -, h⟩ := bind_eq_ok h
      obtain rfl := Except.ok.inj h
      simp

/-- The first pass keeps lines in order, inside the source, and its events in order. -/
theorem collectFrom_spec {idx skip : Nat} {lines : List (List Char)} {collected : Collected}
    (h : collectFrom idx skip lines = .ok collected) :
    collected.stripped.Pairwise (·.1 < ·.1) ∧
      (∀ entry ∈ collected.stripped, idx ≤ entry.1 ∧ entry.1 < idx + lines.length) ∧
      collected.events.Pairwise (·.line ≤ ·.line) ∧ ∀ e ∈ collected.events, idx ≤ e.line := by
  induction lines generalizing idx skip collected with
  | nil =>
      cases skip <;> obtain rfl := Except.ok.inj h <;> simp
  | cons raw lines ih =>
      cases skip with
      | succ skip =>
          obtain ⟨hlines, hinside, hevents, hbelow⟩ := ih h
          refine ⟨hlines, fun entry hentry => ?_, hevents, fun e he => ?_⟩
          · have := hinside entry hentry
            simp only [List.length_cons]
            omega
          · have := hbelow e he
            omega
      | zero =>
          obtain ⟨read, -, h⟩ := bind_eq_ok h
          obtain ⟨more, hmore, h⟩ := bind_eq_ok h
          obtain rfl := Except.ok.inj h
          obtain ⟨hlines, hinside, hevents, hbelow⟩ := ih hmore
          refine ⟨List.pairwise_cons.2 ⟨fun entry hentry => ?_, hlines⟩, ?_, ?_, ?_⟩
          · have := hinside entry hentry
            omega
          · rintro entry (_ | ⟨_, hentry⟩)
            · simp
            · have := hinside entry hentry
              simp only [List.length_cons]
              omega
          · refine List.pairwise_append.2 ⟨?_, hevents, ?_⟩
            · exact List.pairwise_map.2 (List.pairwise_of_forall fun _ _ => Nat.le_refl _)
            · rintro e he d hd
              obtain ⟨_, -, rfl⟩ := List.mem_map.1 he
              have := hbelow d hd
              simp only
              omega
          · intro e he
            rcases List.mem_append.1 he with he | he
            · obtain ⟨_, -, rfl⟩ := List.mem_map.1 he
              exact Nat.le_refl _
            · have := hbelow e he
              omega

/-- Blanking block comments keeps the newlines, and a last one stays the last. -/
theorem stripBlocksFrom_newlines {within : Within} {line opened : Nat} {taken : Option Bool}
    {s out : List Char} (htaken : taken = some false → s.head? ≠ some '\n')
    (h : stripBlocksFrom within line opened taken s = .ok out) :
    out.count '\n' = s.count '\n' ∧ (s = [] → out = []) ∧
      (s.getLast? = some '\n' → out.getLast? = some '\n') := by
  induction s generalizing within line opened taken out with
  | nil =>
      rw [stripBlocksFrom] at h
      by_cases hblock : within = .block
      · simp [hblock] at h
      · obtain rfl : [] = out := by simpa [hblock] using h
        simp
  | cons c s ih =>
      have hkeep {within : Within} {line opened : Nat} {taken : Option Bool}
          (htaken : taken = some false → s.head? ≠ some '\n')
          (h : (stripBlocksFrom within line opened taken s).map (c :: ·) = .ok out) :
          out.count '\n' = (c :: s).count '\n' ∧ (c :: s = [] → out = []) ∧
            ((c :: s).getLast? = some '\n' → out.getLast? = some '\n') := by
        cases hmore : stripBlocksFrom within line opened taken s with
        | error e => simp [hmore, Except.map] at h
        | ok more =>
            obtain rfl : c :: more = out := by simpa [hmore, Except.map] using h
            obtain ⟨hcount, hnil, hlast⟩ := ih htaken hmore
            refine ⟨by rw [List.count_cons, List.count_cons, hcount], by simp, fun hend => ?_⟩
            cases s with
            | nil => simpa [hnil rfl] using hend
            | cons d s =>
                rw [List.getLast?_cons_cons] at hend
                simp [List.getLast?_cons, hlast hend]
      have hdrop {within : Within} {line opened : Nat} {taken : Option Bool} (hc : c ≠ '\n')
          (htaken : taken = some false → s.head? ≠ some '\n')
          (h : stripBlocksFrom within line opened taken s = .ok out) :
          out.count '\n' = (c :: s).count '\n' ∧ (c :: s = [] → out = []) ∧
            ((c :: s).getLast? = some '\n' → out.getLast? = some '\n') := by
        obtain ⟨hcount, -, hlast⟩ := ih htaken h
        refine ⟨by rw [hcount, List.count_cons_of_ne hc], by simp, fun hend => ?_⟩
        cases s with
        | nil => exact absurd (by simpa using hend) hc
        | cons d s => exact hlast (by rwa [List.getLast?_cons_cons] at hend)
      match taken with
      | some true => exact hkeep (by simp) h
      | some false => exact hdrop (by simpa using htaken) (by simp) h
      | none =>
          by_cases hc : c = '\n'
          · cases within <;> rw [stripBlocksFrom, if_pos hc] at h <;> exact hkeep (by simp) h
          · cases within <;> rw [stripBlocksFrom, if_neg hc] at h
            case block =>
              by_cases hclose : c = '*' ∧ s.head? = some '/'
              · rw [if_pos hclose] at h
                exact hdrop hc (by simp [hclose.2]) h
              · rw [if_neg hclose] at h
                exact hdrop hc (by simp) h
            case code =>
              by_cases hcomment : c = '/' ∧ s.head? = some '/'
              · rw [if_pos hcomment] at h
                exact hkeep (by simp) h
              · rw [if_neg hcomment] at h
                by_cases hblock : c = '/' ∧ s.head? = some '*'
                · rw [if_pos hblock] at h
                  exact hdrop hc (by simp [hblock.2]) h
                · rw [if_neg hblock] at h
                  exact hkeep (by simp) h
            case comment => exact hkeep (by simp) h
            all_goals
              by_cases hescape : c = '\\'
              · rw [if_pos hescape] at h
                exact hkeep (by simp) h
              · rw [if_neg hescape] at h
                exact hkeep (by simp) h

theorem length_splitLines (text : List Char) : (Operands.splitLines text).length =
    text.count '\n' + if text = [] ∨ text.getLast? = some '\n' then 0 else 1 := by
  have hlength := Lines.length_splitOn (a := '\n') text
  have hlast := @Lines.getLast_splitOn_eq_nil _ _ _ '\n' text
  unfold Operands.splitLines
  generalize text.splitOn '\n' = pieces at hlength hlast
  cases hend : pieces.getLast? with
  | none =>
      rw [List.getLast?_eq_none_iff] at hend
      simp [hend] at hlength
  | some piece =>
      rw [hend, Option.some.injEq] at hlast
      cases piece with
      | nil => simp [hend, hlast.1 rfl, hlength]
      | cons c piece =>
          have hsome : ¬ (text = [] ∨ text.getLast? = some '\n') :=
            fun h => by simpa using hlast.2 h
          simp [hend, hsome, hlength]

/-- Blanking block comments adds no lines. -/
theorem length_splitLines_le {source blanked : List Char}
    (h : stripBlockComments source = .ok blanked) :
    (Operands.splitLines blanked).length ≤ (Operands.splitLines source).length := by
  obtain ⟨hcount, hnil, hlast⟩ := stripBlocksFrom_newlines (by simp) h
  rw [length_splitLines, length_splitLines, hcount]
  by_cases hsource : source = [] ∨ source.getLast? = some '\n'
  · rw [if_pos hsource, if_pos (hsource.imp hnil hlast)]
  · rw [if_neg hsource]
    split <;> omega

section
variable {events : List DefineEvent} {name : List Char}

/-- The body met last above a line is the one the bindings there hold. -/
theorem bodyAt_eq (hsorted : events.Pairwise (·.line ≤ ·.line)) (line : Nat) (m : Macros) :
    bodyAt name line events (m name) =
      ((events.filter fun e => e.line ≤ line).foldl Macros.apply m) name := by
  induction events generalizing m with
  | nil => rfl
  | cons e events ih =>
      obtain ⟨hfirst, hrest⟩ := List.pairwise_cons.1 hsorted
      by_cases hbelow : line < e.line
      · have hnone : (e :: events).filter (fun d => d.line ≤ line) = [] :=
          List.filter_eq_nil_iff.2 fun d hd => by
            rcases List.mem_cons.1 hd with rfl | hd
            · simpa using hbelow
            · simpa using lt_of_lt_of_le hbelow (hfirst d hd)
        rw [bodyAt, if_pos hbelow, hnone]
        rfl
      · have hbody : (if e.name = name then e.body else m name) = (m.apply e) name := by
          cases hevent : e.body <;>
            simp [Macros.apply, hevent, Macros.insert, Macros.remove, eq_comm]
        rw [bodyAt, if_neg hbelow, hbody, ih hrest]
        simp [Nat.le_of_not_lt hbelow]

/-- A name that is nowhere defined has no body, however often it is undefined. -/
theorem foldl_apply_eq_none {m : Macros} (hm : m name = none)
    (h : ∀ e ∈ events, e.name = name → e.body = none) :
    (events.foldl Macros.apply m) name = none := by
  induction events generalizing m with
  | nil => exact hm
  | cons e events ih =>
      obtain ⟨he, hevents⟩ := List.forall_mem_cons.1 h
      refine ih ?_ hevents
      by_cases hname : e.name = name
      · simp [Macros.apply, he hname, Macros.remove, hname]
      · cases hbody : e.body <;>
          simp [Macros.apply, hbody, Macros.insert, Macros.remove, Ne.symm hname, hm]

theorem foldl_record_eq_none {m : Macros} (hm : m name = none)
    (h : ∀ e ∈ events, e.name = name → e.body = none) :
    (events.foldl Macros.record m) name = none := by
  induction events generalizing m with
  | nil => exact hm
  | cons e events ih =>
      obtain ⟨he, hevents⟩ := List.forall_mem_cons.1 h
      refine ih ?_ hevents
      by_cases hname : e.name = name
      · simp [Macros.record, he hname, hm]
      · cases hbody : e.body <;> simp [Macros.record, hbody, Macros.insert, Ne.symm hname, hm]

theorem defineCount_eq_zero :
    defineCount events name = 0 ↔ ∀ e ∈ events, e.name = name → e.body = none := by
  simp [defineCount, List.countP_eq_zero]

end

/-- The events of an expansion, whose lines are counted from one. -/
def shifted (events : List DefineEvent) : List DefineEvent :=
  events.map fun e => { e with line := e.line + 1 }

theorem bindingsAt_shifted (events : List DefineEvent) (line : Nat) :
    bindingsAt (shifted events) line =
      (events.filter fun e => e.line < line).foldl Macros.apply fun _ => none := by
  simp only [bindingsAt, shifted, List.filter_map, List.foldl_map, Function.comp_def,
    Order.add_one_le_iff]
  rfl

/-- A name with more than one define, or with an undefine. -/
def Rebound (events : List DefineEvent) (name : List Char) : Prop :=
  1 < defineCount events name ∨ isUndefined events name = true

/-- What ties an expansion to its source: `out` are the lines of the walk behind it. -/
structure Mapped (source : List Char) (out : List OutputLine) (r : Expanded) : Prop where
  text : r.text = List.intercalate ['\n'] (out.map OutputLine.text)
  bindings : ∀ o ∈ out, o.bindings = bindingsAt r.defineEvents o.lineNum
  entries : ∃ blanked, stripBlockComments source = .ok blanked ∧
    if Operands.splitLines blanked = [] then r.text = [] ∧ r.lineMap = [] else
      r.lineMap.length = (r.text.splitOn '\n').length
  ordered : r.lineMap.Pairwise (· ≤ ·)
  existing : ∀ l ∈ r.lineMap, 1 ≤ l ∧ l ≤ (Operands.splitLines source).length
  fixed : ∀ entry ∈ (r.text.splitOn '\n').zip r.lineMap,
    substituteBounded entry.1 (bindingsAt r.defineEvents entry.2) entry.2 = .ok entry.1
  bodies : ∀ name, Rebound r.defineEvents name → ∀ l,
    r.defineBodyAt name l = bindingsAt r.defineEvents l name

theorem lineMap_entry {out : List OutputLine} {l : Nat}
    (h : l ∈ out.flatMap OutputLine.lineNums) : ∃ o ∈ out, l = o.lineNum := by
  obtain ⟨o, ho, hl⟩ := List.mem_flatMap.1 h
  exact ⟨o, ho, List.eq_of_mem_replicate hl⟩

theorem defineBodyAt_assemble {collected : Collected} {out : List OutputLine}
    {name : List Char} (hsorted : collected.events.Pairwise (·.line ≤ ·.line))
    (h : Rebound (shifted collected.events) name) (l : Nat) :
    (assemble collected out).defineBodyAt name l =
      bindingsAt (shifted collected.events) l name := by
  have hcount : defineCount (shifted collected.events) name =
      defineCount collected.events name := by
    simp [defineCount, shifted, List.countP_map, Function.comp_def]
  have hundefined : isUndefined (shifted collected.events) name =
      isUndefined collected.events name := by
    simp [isUndefined, shifted, List.any_map, Function.comp_def]
  have hshifted : (shifted collected.events).Pairwise (·.line ≤ ·.line) :=
    List.pairwise_map.2 (hsorted.imp fun hle => Nat.succ_le_succ hle)
  rw [Rebound, hcount, hundefined] at h
  by_cases hzero : defineCount collected.events name = 0
  · have hnone := defineCount_eq_zero.1 hzero
    have hwindowed : isWindowed collected.events name = false := by simp [isWindowed, hzero]
    have hlast : lastBodies collected.events name = none := foldl_record_eq_none rfl hnone
    rw [bindingsAt_shifted, foldl_apply_eq_none rfl fun e he => hnone e (List.mem_of_mem_filter he)]
    simp [Expanded.defineBodyAt, assemble, hwindowed, hlast]
  · have hwindowed : isWindowed collected.events name = true := by
      rcases h with hmore | hundef
      · simp [isWindowed, Nat.pos_of_ne_zero hzero,
          show defineCount collected.events name ≠ 1 by omega]
      · simp [isWindowed, Nat.pos_of_ne_zero hzero, hundef]
    rw [Expanded.defineBodyAt]
    simp only [assemble, hwindowed, if_true]
    exact bodyAt_eq (m := fun _ => none) hshifted l

/-- Every accepted expansion is mapped to its source. -/
theorem expand_mapped {source : List Char} {r : Expanded} (h : expand source = .ok r) :
    ∃ collected out, walk source = .ok (collected, out) ∧ Mapped source out r := by
  obtain ⟨blanked, collected, out, hblanked, hcollected, hout, rfl⟩ := of_expand h
  obtain ⟨hlines, hinside, hevents, -⟩ := collectFrom_spec hcollected
  obtain ⟨hnums, hspec⟩ := substituteLines_spec hlines hevents hout
  have hbindings : ∀ o ∈ out, o.bindings = bindingsAt (shifted collected.events) o.lineNum :=
    fun o ho => ((hspec o ho).1).trans (bindingsAt_shifted _ _).symm
  have hlineNum : ∀ o ∈ out, 1 ≤ o.lineNum ∧
      o.lineNum ≤ (Operands.splitLines source).length := by
    intro o ho
    have hmem : o.lineNum ∈ collected.stripped.map (·.1 + 1) :=
      hnums ▸ List.mem_map.2 ⟨o, ho, rfl⟩
    obtain ⟨entry, hentry, heq⟩ := List.mem_map.1 hmem
    have hlt := hinside entry hentry
    have hle := length_splitLines_le hblanked
    omega
  have hlength : ∀ o ∈ out, (o.text.splitOn '\n').length = o.lineNums.length := by
    intro o _
    simp [OutputLine.lineNums, Lines.length_splitOn]
  refine ⟨collected, out, ?_, rfl, hbindings, ?_, ?_, ?_, ?_, ?_⟩
  · simp [walk, hblanked, hcollected, hout, bind, Except.bind, pure, Except.pure]
  · refine ⟨blanked, hblanked, ?_⟩
    have hempty : out = [] ↔ Operands.splitLines blanked = [] := by
      rw [← collectFrom_eq_nil_iff hcollected, ← List.map_eq_nil_iff, hnums, List.map_eq_nil_iff]
    by_cases hnil : out = []
    · rw [if_pos (hempty.1 hnil)]
      simp [hnil, assemble]
    · rw [if_neg fun hlines => hnil (hempty.2 hlines)]
      simp only [assemble]
      rw [Lines.splitOn_intercalate _ (by simpa using hnil), List.flatMap_map,
        List.length_flatMap, List.length_flatMap]
      exact congrArg List.sum (List.map_congr_left fun o ho => (hlength o ho).symm)
  · refine List.pairwise_flatMap.2 ⟨fun o _ => ?_, ?_⟩
    · exact List.pairwise_replicate.2 (Or.inr (Nat.le_refl _))
    · have hordered : (out.map OutputLine.lineNum).Pairwise (· < ·) := by
        rw [hnums]
        exact List.pairwise_map.2 (hlines.imp fun hlt => Nat.succ_lt_succ hlt)
      refine (List.pairwise_map.1 hordered).imp fun hlt x hx y hy => ?_
      rw [List.eq_of_mem_replicate hx, List.eq_of_mem_replicate hy]
      exact Nat.le_of_lt hlt
  · intro l hl
    obtain ⟨o, ho, rfl⟩ := lineMap_entry hl
    exact hlineNum o ho
  · intro entry hentry
    by_cases hnil : out = []
    · simp [hnil, assemble] at hentry
    · simp only [assemble] at hentry
      rw [Lines.splitOn_intercalate _ (by simpa using hnil), List.flatMap_map,
        Lines.zip_flatMap out hlength] at hentry
      obtain ⟨o, ho, hzip⟩ := List.mem_flatMap.1 hentry
      obtain ⟨hline, hnum⟩ := List.of_mem_zip hzip
      rw [List.eq_of_mem_replicate hnum]
      exact substituteBounded_of_roundText
        (hbindings o ho ▸ roundText_splitOn (hspec o ho).2 _ hline) _
  · intro name hname l
    exact defineBodyAt_assemble hevents hname l

/-- A macro that is redefined and then undefined, and a body of two lines that uses it. -/
def redefined : List Char :=
  "define(r, w1)\ndefine(two, `r\nr')\ntwo\ndefine(r, w2)\ntwo /* r */\nundefine(`r')\nr".toList

theorem expand_mapped_redefined : ∃ r, expand redefined = .ok r ∧
    r.text = "\n\nw1\nw1\n\nw2\nw2 \n\nr".toList ∧ r.lineMap = [1, 2, 4, 4, 5, 6, 6, 7, 8] ∧
    ∃ collected out, walk redefined = .ok (collected, out) ∧ Mapped redefined out r := by
  have hexpand : (expand redefined).toOption.map (fun r => (r.text, r.lineMap)) =
      some ("\n\nw1\nw1\n\nw2\nw2 \n\nr".toList, [1, 2, 4, 4, 5, 6, 6, 7, 8]) := by
    decide +kernel
  cases hr : expand redefined with
  | error e =>
      rw [hr] at hexpand
      cases hexpand
  | ok r =>
      rw [hr] at hexpand
      obtain ⟨htext, hlineMap⟩ := Prod.mk.inj (Option.some.inj hexpand)
      exact ⟨r, rfl, htext, hlineMap, expand_mapped hr⟩

/-- The empty source gives an empty text, which is one line between newlines, and an empty
line map. -/
theorem not_one_entry_per_line : ¬ ∀ source r, expand source = .ok r →
    r.lineMap.length = (r.text.splitOn '\n').length := by
  intro h
  have hempty := h [] (assemble ⟨[], [], []⟩ []) rfl
  exact absurd hempty (by decide)

end M4

end Playground
