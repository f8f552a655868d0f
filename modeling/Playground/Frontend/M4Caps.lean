/-
How far the size caps of the m4 expander bound what it builds.  A round looks at its cap
before every write and never after the last, so what it promises depends on which write
takes the text past the cap.
-/
import Playground.Frontend.M4Expand
import Playground.Frontend.M4Rounds

namespace Playground

namespace M4

/-- A write that takes the text from within the limit past it is never the last one, and is a
replacement or stays within `room` of the limit. -/
def Watched (limit room : Nat) (ws : List Write) : Prop :=
  ∀ before w after, ws = before ++ w :: after →
    Lexer.utf8Size (written before) ≤ limit →
    limit < Lexer.utf8Size (written before ++ w.text) →
    after ≠ [] ∧
      (w.replaced = true ∨ Lexer.utf8Size (written before ++ w.text) ≤ limit + room)

theorem Watched.of_fits {limit room : Nat} {ws : List Write}
    (h : Lexer.utf8Size (written ws) ≤ limit) : Watched limit room ws := by
  rintro before w after rfl - hpast
  simp only [written_append, written_cons, utf8Size_append] at h hpast
  omega

/-- Writes under watch end within the limit, or at a stop within `room` of it. -/
theorem Watched.pour {limit room : Nat} {before ws : List Write}
    (h : Watched limit room (before ++ ws)) (hbefore : Lexer.utf8Size (written before) ≤ limit)
    (hroom : ∀ w ∈ ws, w.replaced = true → Lexer.utf8Size w.text ≤ room)
    {built : List Char} {stop : Option Stop}
    (hpour : pour limit ws (written before) = (built, stop)) :
    Lexer.utf8Size built ≤ limit ∨ stop ≠ none ∧ Lexer.utf8Size built ≤ limit + room := by
  induction ws generalizing before with
  | nil =>
      obtain ⟨rfl, -⟩ := Prod.mk.inj hpour
      exact Or.inl hbefore
  | cons w ws ih =>
      rw [M4.pour, if_neg (by omega)] at hpour
      by_cases hfits : Lexer.utf8Size (written before ++ w.text) ≤ limit
      · have hnext : written (before ++ [w]) = written before ++ w.text := by simp
        have hwatched : Watched limit room ((before ++ [w]) ++ ws) := by simpa using h
        exact ih hwatched (by rwa [hnext]) (fun v hv => hroom v (List.mem_cons_of_mem w hv))
          (by rwa [hnext])
      · obtain ⟨hmore, hwithin⟩ := h before w ws rfl hbefore (by omega)
        obtain ⟨v, vs, rfl⟩ := List.exists_cons_of_ne_nil hmore
        rw [M4.pour, if_pos (by omega)] at hpour
        obtain ⟨rfl, rfl⟩ := Prod.mk.inj hpour
        refine Or.inr ⟨by simp, hwithin.elim (fun hreplaced => ?_) id⟩
        have hw := hroom w List.mem_cons_self hreplaced
        rw [utf8Size_append]
        omega

/-- What a piece puts in place of a macro call. -/
def Piece.replacement : Piece → List Char
  | .copied _ => []
  | .replaced body => body
  | .call name body args => written (Piece.call name body args).writes

def longestReplacement (defines : Macros) (line : List Char) : Nat :=
  ((pieces defines false 0 line).1.map fun p => Lexer.utf8Size p.replacement).foldr max 0

theorem le_foldr_max {n : Nat} {ns : List Nat} (h : n ∈ ns) : n ≤ ns.foldr max 0 := by
  induction ns with
  | nil => exact absurd h List.not_mem_nil
  | cons m ns ih =>
      rcases List.mem_cons.1 h with rfl | hmem
      · exact Nat.le_max_left n _
      · exact (ih hmem).trans (Nat.le_max_right m _)

theorem utf8Size_le_written {w : Write} {ws : List Write} (h : w ∈ ws) :
    Lexer.utf8Size w.text ≤ Lexer.utf8Size (written ws) := by
  obtain ⟨before, after, rfl⟩ := List.append_of_mem h
  simp only [written_append, written_cons, utf8Size_append]
  omega

theorem utf8Size_le_replacement {p : Piece} {w : Write} (hw : w ∈ p.writes)
    (hreplaced : w.replaced = true) :
    Lexer.utf8Size w.text ≤ Lexer.utf8Size p.replacement := by
  cases p with
  | copied text =>
      obtain rfl := List.mem_singleton.1 hw
      exact absurd hreplaced Bool.false_ne_true
  | replaced body =>
      obtain rfl := List.mem_singleton.1 hw
      exact Nat.le_refl _
  | call name body args => exact utf8Size_le_written hw

section
variable {defines : Macros} {line : List Char}

/-- A replacing write of a line is within the longest replacement on it. -/
theorem utf8Size_le_longest {w : Write} (hw : w ∈ lineWrites defines false 0 line)
    (hreplaced : w.replaced = true) :
    Lexer.utf8Size w.text ≤ longestReplacement defines line := by
  rcases List.mem_append.1 hw with hpiece | hunread
  · obtain ⟨p, hp, hwp⟩ := List.mem_flatMap.1 hpiece
    exact (utf8Size_le_replacement hwp hreplaced).trans
      (le_foldr_max (List.mem_map.2 ⟨p, hp, rfl⟩))
  · cases hstop : (pieces defines false 0 line).2 with
    | none => simp [hstop] at hunread
    | some stop =>
        obtain rfl : w = ⟨[], false⟩ := by simpa [hstop] using hunread
        exact absurd hreplaced (by decide)

/-- What one watched round builds: within its limit, or stopped within one replacement of
it. -/
theorem round_bound {limit : Nat}
    (h : Watched limit (longestReplacement defines line) (lineWrites defines false 0 line))
    {built : List Char} {stop : Option Stop}
    (hround : substitutePass defines limit false 0 line [] = (built, stop)) :
    Lexer.utf8Size built ≤ limit ∨
      stop ≠ none ∧ Lexer.utf8Size built ≤ limit + longestReplacement defines line := by
  rw [substitutePass_eq] at hround
  cases hpour : pour limit (lineWrites defines false 0 line) [] with
  | mk out why =>
      have hbound := @Watched.pour limit _ [] _ h (Nat.zero_le _)
        (fun w hw hreplaced => utf8Size_le_longest hw hreplaced) _ _ hpour
      rw [hpour] at hround
      cases why with
      | none =>
          obtain ⟨rfl, rfl⟩ := Prod.mk.inj hround
          exact Or.inl (hbound.resolve_right fun hstop => hstop.1 rfl)
      | some why =>
          obtain ⟨rfl, rfl⟩ := Prod.mk.inj hround
          exact hbound.imp id fun hstop => ⟨by simp, hstop.2⟩

end

section
variable (defines : Macros) (line : List Char)

/-- The line that round `k` of an expansion starts from, if it gets there. -/
def roundLine : Nat → Option (List Char)
  | 0 => some line
  | k + 1 =>
      match roundLine k with
      | none => none
      | some current => (substituteOnceGnu current defines (lineLimit current)).toOption

/-- The text a round has built when it ends or stops. -/
def roundBuilds (current : List Char) : List Char :=
  (substitutePass defines (lineLimit current) false 0 current []).1

/-- Every round of an expansion is watched at its own limit. -/
def RoundsWatched : Prop :=
  ∀ k ≤ maxRecursion, ∀ current, roundLine defines line k = some current →
    Watched (lineLimit current) (longestReplacement defines current)
      (lineWrites defines false 0 current)

/-- The bound on one line: what its expansion and its rounds may reach. -/
structure LineBounded (lineNum : Nat) : Prop where
  expanded : ∀ r, expandRecursively line defines lineNum = .ok r →
    Lexer.utf8Size r ≤ max maxExpandedLineBytes (Lexer.utf8Size line)
  rounds : ∀ k ≤ maxRecursion, ∀ current, roundLine defines line k = some current →
    Lexer.utf8Size (roundBuilds defines current) ≤
      max maxExpandedLineBytes (Lexer.utf8Size line) + longestReplacement defines current

end

section
variable {defines : Macros} {line : List Char}

theorem roundLine_succ {k lineNum : Nat} {current next : List Char}
    (hcurrent : roundLine defines line k = some current)
    (hnext : substituteBounded current defines lineNum = .ok next) :
    roundLine defines line (k + 1) = some next := by
  rw [roundLine, hcurrent]
  simp [substituteBounded_eq_ok.1 hnext, Except.toOption]

theorem lineLimit_roundLine (h : RoundsWatched defines line) (k : Nat) (hk : k ≤ maxRecursion)
    {current : List Char} (hcurrent : roundLine defines line k = some current) :
    lineLimit current ≤ lineLimit line := by
  induction k generalizing current with
  | zero =>
      obtain rfl : line = current := by simpa [roundLine] using hcurrent
      exact Nat.le_refl _
  | succ k ih =>
      cases hprev : roundLine defines line k with
      | none => simp [roundLine, hprev] at hcurrent
      | some prev =>
          have hround : substituteOnceGnu prev defines (lineLimit prev) = .ok current := by
            rw [roundLine, hprev] at hcurrent
            cases hstep : substituteOnceGnu prev defines (lineLimit prev) with
            | error stop => simp [hstep, Except.toOption] at hcurrent
            | ok next =>
                simp only [hstep, Except.toOption, Option.some.injEq] at hcurrent
                rw [hcurrent]
          have hbuilt := round_bound (h k (by omega) prev hprev)
            (substituteOnceGnu_eq_ok.1 hround)
          have hle : Lexer.utf8Size current ≤ lineLimit prev :=
            hbuilt.resolve_right fun hstop => hstop.1 rfl
          have hprevLimit := ih (by omega) hprev
          unfold lineLimit at *
          omega

theorem expandRounds_roundLine {lineNum rounds k : Nat} {current r : List Char}
    (hcurrent : roundLine defines line k = some current)
    (hr : expandRounds defines lineNum rounds current = .ok r) :
    ∃ j ≤ k + rounds, roundLine defines line j = some r := by
  induction rounds generalizing k current with
  | zero =>
      cases hnext : substituteBounded current defines lineNum with
      | error e => simp [expandRounds, hnext, bind, Except.bind] at hr
      | ok next =>
          by_cases hsame : next = current
          · have heq : current = r := by
              simpa [expandRounds, hnext, hsame, bind, Except.bind, pure, Except.pure] using hr
            exact ⟨k, by omega, by rw [hcurrent, heq]⟩
          · simp [expandRounds, hnext, hsame, bind, Except.bind] at hr
  | succ rounds ih =>
      cases hnext : substituteBounded current defines lineNum with
      | error e => simp [expandRounds, hnext, bind, Except.bind] at hr
      | ok next =>
          by_cases hsame : next = current
          · have heq : current = r := by
              simpa [expandRounds, hnext, hsame, bind, Except.bind, pure, Except.pure] using hr
            exact ⟨k, by omega, by rw [hcurrent, heq]⟩
          · have hmore : expandRounds defines lineNum rounds next = .ok r := by
              simpa [expandRounds, hnext, hsame, bind, Except.bind] using hr
            obtain ⟨j, hj, hline⟩ := ih (roundLine_succ hcurrent hnext) hmore
            exact ⟨j, by omega, hline⟩

theorem lineBounded_of_watched (h : RoundsWatched defines line) (lineNum : Nat) :
    LineBounded defines line lineNum := by
  constructor
  · intro r hr
    obtain ⟨j, hj, hline⟩ := expandRounds_roundLine (k := 0) rfl hr
    have hlimit := lineLimit_roundLine h j (by omega) hline
    unfold lineLimit at hlimit
    omega
  · intro k hk current hcurrent
    have hlimit := lineLimit_roundLine h k hk hcurrent
    have hbuilt := round_bound (h k hk current hcurrent) rfl
    change _ ≤ lineLimit line + _
    unfold roundBuilds
    omega

end

/-- The walk's lines together keep within the total. -/
theorem substituteLines_total {stripped : List (Nat × List Char)} {events : List DefineEvent}
    {current : Macros} {total : Nat} {out : List OutputLine}
    (htotal : total ≤ maxExpandedTotalBytes)
    (h : substituteLines stripped events current total = .ok out) :
    total + (out.map fun o => Lexer.utf8Size o.text).sum ≤ maxExpandedTotalBytes := by
  induction stripped generalizing events current total out with
  | nil =>
      obtain rfl : [] = out := by simpa [substituteLines] using h
      simpa using htotal
  | cons entry stripped ih =>
      obtain ⟨idx, line⟩ := entry
      obtain ⟨expanded, more, -, hfits, hmore, rfl⟩ := of_substituteLines_cons h
      have hrest := ih hfits hmore
      simp only [List.map_cons, List.sum_cons]
      omega

/-- Joined lines are as long as the lines, with one separator between two. -/
theorem utf8Size_joined (texts : List (List Char)) :
    Lexer.utf8Size (List.intercalate ['\n'] texts) ≤
      (texts.map Lexer.utf8Size).sum + (List.intercalate ['\n'] texts).count '\n' := by
  induction texts with
  | nil => exact Nat.zero_le _
  | cons text texts ih =>
      cases texts with
      | nil => simp
      | cons next texts =>
          have hnewline : Char.utf8Size '\n' = 1 := by decide
          rw [List.intercalate_cons_cons]
          simp only [List.map_cons, List.sum_cons, utf8Size_append, utf8Size_cons, utf8Size_nil,
            List.count_append, List.count_cons_self, List.count_nil, hnewline] at ih ⊢
          omega

theorem expand_total {source : List Char} {r : Expanded} (h : expand source = .ok r) :
    Lexer.utf8Size r.text ≤ maxExpandedTotalBytes + r.text.count '\n' := by
  obtain ⟨blanked, collected, out, -, -, hout, rfl⟩ := of_expand h
  have htotal := substituteLines_total (Nat.zero_le _) hout
  have hjoined := utf8Size_joined (out.map OutputLine.text)
  simp only [List.map_map, Function.comp_def] at hjoined
  simp only [assemble]
  omega

/-- Where every round is watched the line and all its rounds keep within the bound, and an
expanded source always keeps within the total. -/
theorem caps_bound (defines : Macros) (line source : List Char) (lineNum : Nat)
    (h : RoundsWatched defines line) :
    LineBounded defines line lineNum ∧
      ∀ r, expand source = .ok r →
        Lexer.utf8Size r.text ≤ maxExpandedTotalBytes + r.text.count '\n' :=
  ⟨lineBounded_of_watched h lineNum, fun _ hr => expand_total hr⟩

/-- `define(size, w19)`. -/
def sizeMacro : Macros := Macros.insert (fun _ => none) "size".toList "w19".toList

theorem roundLine_size (k : Nat) :
    roundLine sizeMacro "size".toList (k + 1) = some "w19".toList := by
  induction k with
  | zero => decide
  | succ k ih =>
      rw [roundLine, ih]
      decide

theorem caps_bound_size : RoundsWatched sizeMacro "size".toList ∧
    LineBounded sizeMacro "size".toList 2 := by
  have hwatched : RoundsWatched sizeMacro "size".toList := by
    intro k _ current hcurrent
    cases k with
    | zero =>
        obtain rfl := Option.some.inj hcurrent
        exact Watched.of_fits (by decide)
    | succ k =>
        obtain rfl := Option.some.inj ((roundLine_size k).symm.trans hcurrent)
        exact Watched.of_fits (by decide)
  exact ⟨hwatched, (caps_bound sizeMacro "size".toList [] 2 hwatched).1⟩

/-- `define(big, 000…0)`, a body longer than the ceiling on a line. -/
def bigMacro (n : Nat) : Macros :=
  Macros.insert (fun _ => none) ['b', 'i', 'g'] (List.replicate (n + 1) '0')

theorem takeWhile_replicate {p : Char → Bool} (h : p '0' = true) (n : Nat) :
    (List.replicate n '0').takeWhile p = List.replicate n '0' :=
  List.takeWhile_eq_self_iff.2 fun c hc => by rw [List.eq_of_mem_replicate hc, h]

theorem pieces_zeros (defines : Macros) (n : Nat) :
    pieces defines false 0 (List.replicate (n + 1) '0') =
      ([.copied (List.replicate (n + 1) '0')], none) := by
  have hnext : nextPiece defines false '0' (List.replicate n '0' ++ []) =
      .ok (.copied (List.replicate (n + 1) '0'), (List.replicate n '0').length + 1) := by
    have hcode : ¬ (false = false ∧ '0' = '#') := by decide
    have hlit : ¬ (false = true ∧ ('0' = '"' ∨ '0' = '\'')) := by decide
    have hname : ¬ Lexer.isIdStart '0' = true := by decide
    rw [nextPiece, if_neg hcode, if_neg hlit, if_neg hname, List.append_nil,
      takeWhile_replicate (by decide) n]
    rfl
  simpa [List.replicate_succ, pieces] using pieces_cons hnext

theorem pieces_big (n : Nat) : pieces (bigMacro n) false 0 ['b', 'i', 'g'] =
    ([.call ['b', 'i', 'g'] (List.replicate (n + 1) '0') []], none) := by
  rfl

theorem bodyWrites_zeros (name : List Char) (n : Nat) :
    bodyWrites name [] 0 (List.replicate (n + 1) '0') =
      [⟨List.replicate (n + 1) '0', true⟩] := by
  have hpiece : bodyPiece name [] '0' (List.replicate n '0') =
      (List.replicate (n + 1) '0', n + 1) := by
    simp [bodyPiece, List.replicate_succ]
  have hskip (m : Nat) : bodyWrites name [] m (List.replicate m '0') = [] := by
    induction m with
    | zero => rfl
    | succ m ih => exact ih
  rw [List.replicate_succ, bodyWrites, hpiece]
  simp [hskip, List.replicate_succ]

theorem utf8Size_zeros (n : Nat) : Lexer.utf8Size (List.replicate n '0') = n := by
  induction n with
  | zero => rfl
  | succ n ih =>
      have hzero : Char.utf8Size '0' = 1 := by decide
      rw [List.replicate_succ, utf8Size_cons, ih, hzero]
      omega

theorem expandRounds_of_ne {defines : Macros} {lineNum rounds : Nat} {current next : List Char}
    (h : substituteBounded current defines lineNum = .ok next) (hne : next ≠ current) :
    expandRounds defines lineNum (rounds + 1) current =
      expandRounds defines lineNum rounds next := by
  rw [expandRounds, h]
  exact if_neg hne

theorem expandRounds_of_same {defines : Macros} {lineNum rounds : Nat} {current : List Char}
    (h : substituteBounded current defines lineNum = .ok current) :
    expandRounds defines lineNum (rounds + 1) current = .ok current := by
  rw [expandRounds, h]
  exact if_pos rfl

/-- A short line that names the macro expands to the whole body, however long. -/
theorem expandRecursively_big (n lineNum : Nat) :
    expandRecursively ['b', 'i', 'g'] (bigMacro n) lineNum =
      .ok (List.replicate (n + 1) '0') := by
  have hfirst : substituteBounded ['b', 'i', 'g'] (bigMacro n) lineNum =
      .ok (List.replicate (n + 1) '0') := by
    rw [substituteBounded_eq_ok, substituteOnceGnu_eq_ok, substitutePass_eq]
    simp [lineWrites, pieces_big, Piece.writes, bodyWrites_zeros, pour]
  have hagain : substituteBounded (List.replicate (n + 1) '0') (bigMacro n) lineNum =
      .ok (List.replicate (n + 1) '0') := by
    rw [substituteBounded_eq_ok, substituteOnceGnu_eq_ok, substitutePass_eq]
    simp [lineWrites, pieces_zeros, Piece.writes, pour]
  have hne : List.replicate (n + 1) '0' ≠ ['b', 'i', 'g'] := by
    intro h
    have := congrArg List.head? h
    exact absurd this (by simp [List.replicate_succ])
  exact (@expandRounds_of_ne _ _ 31 _ _ hfirst hne).trans (expandRounds_of_same hagain)

/-- Seventy thousand zeros for a line of three characters. -/
theorem not_lineBounded : ¬ LineBounded (bigMacro 69999) ['b', 'i', 'g'] 2 := by
  intro h
  have hbound := h.expanded _ (expandRecursively_big 69999 2)
  rw [utf8Size_zeros] at hbound
  exact absurd hbound (by decide)

end M4

end Playground
