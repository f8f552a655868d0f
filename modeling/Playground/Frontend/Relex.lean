/-
Reading back what `stringify` writes: a token's text, before a blank or a closing bracket or a
comma, lexes to the token again, or to what its number prints as.
-/
import Playground.Frontend.Literals

namespace Playground

namespace Lexer

/-- A blank, a comma, a closing bracket or the end comes next. -/
def Delimits (after : List Char) : Prop :=
  ∀ c ∈ after.head?, c = ' ' ∨ c = ',' ∨ c = ']' ∨ c = '\x7d'

theorem Delimits.nil : Delimits [] := by
  rintro c ⟨⟩

theorem Delimits.blank (rest : List Char) : Delimits (' ' :: rest) := by
  rintro c ⟨⟩
  exact .inl rfl

/-- No character of a longer token can follow. -/
theorem Delimits.not_of (p : Char → Bool) (hp : p ' ' = false ∧ p ',' = false ∧ p ']' = false ∧
    p '\x7d' = false) {after : List Char} (h : Delimits after) :
    ∀ c ∈ after.head?, p c = false := by
  intro c hc
  obtain ⟨hblank, hcomma, hbracket, hbrace⟩ := hp
  rcases h c hc with rfl | rfl | rfl | rfl <;> assumption

section TakeWhile

variable {α : Type} {p : α → Bool} {s after : List α}

/-- A run stops where what follows it begins. -/
theorem takeWhile_append_of_stop (hs : ∀ c ∈ s, p c = true)
    (hafter : ∀ c ∈ after.head?, p c = false) :
    (s ++ after).takeWhile p = s ∧ (s ++ after).dropWhile p = after := by
  rw [List.takeWhile_append_of_pos hs, List.dropWhile_append_of_pos hs]
  cases after with
  | nil => exact ⟨by simp, rfl⟩
  | cons c rest =>
      have hc : p c = false := hafter c rfl
      simp [hc]

end TakeWhile

section Ident

variable {s name rest after : List Char}

/-- No suffix begins another, so the one that reads is the one found. -/
theorem find_suffix {suffix : List Char} (hmem : suffix ∈ vectorSuffixes)
    (hread : (rest.take suffix.length).map Char.toLower = suffix) :
    (vectorSuffixes.find? fun s => decide ((rest.take s.length).map Char.toLower = s)) =
      some suffix := by
  have hfront : ∀ s ∈ vectorSuffixes, ∀ s' ∈ vectorSuffixes, s <+: s' → s = s' := by
    decide
  have hof : ∀ s, (rest.take s.length).map Char.toLower = s → s <+: rest.map Char.toLower := by
    intro s hs
    rw [← hs, List.map_take]
    exact List.take_prefix _ _
  cases hfind : vectorSuffixes.find? fun s =>
      decide ((rest.take s.length).map Char.toLower = s) with
  | none => exact absurd (decide_eq_true hread) (List.find?_eq_none.mp hfind suffix hmem)
  | some found =>
      have hfound : (rest.take found.length).map Char.toLower = found := by
        have hsome := List.find?_some hfind
        exact of_decide_eq_true hsome
      have hfmem : found ∈ vectorSuffixes := List.mem_of_find?_eq_some hfind
      rcases List.prefix_or_prefix_of_prefix (hof found hfound) (hof suffix hread) with h | h
      · rw [hfront found hfmem suffix hmem h]
      · rw [hfront suffix hmem found hfmem h]

/-- The arrangement or the lane after a vector register's name, and what comes after it. -/
inductive Arrangement : List Char → Nat → Prop
  | whole {suffix more : List Char} (hmem : suffix.map Char.toLower ∈ vectorSuffixes)
      (hlong : 1 < suffix.length) : Arrangement ('.' :: (suffix ++ more)) (1 + suffix.length)
  | lane {suffix digits more : List Char} (hmem : suffix.map Char.toLower ∈ vectorSuffixes)
      (hshort : ¬1 < suffix.length) (hne : digits ≠ []) (hdigits : ∀ d ∈ digits, d.isDigit = true) :
      Arrangement ('.' :: (suffix ++ '[' :: (digits ++ ']' :: more)))
        (1 + suffix.length + 1 + digits.length + 1)

theorem vectorSuffixLength_of_arrangement {n : Nat} (hname : isVectorRegister name = true)
    (h : Arrangement rest n) : vectorSuffixLength name rest = some n := by
  unfold vectorSuffixLength
  cases h with
  | @whole suffix more hmem hlong =>
      have hread : ((suffix ++ more).take (suffix.map Char.toLower).length).map Char.toLower =
          suffix.map Char.toLower := by
        rw [List.length_map, List.take_left]
      simp only [hname, find_suffix hmem hread, List.length_map, if_pos hlong]
  | @lane suffix digits more hmem hshort hne hdigits =>
      have hread : ((suffix ++ '[' :: (digits ++ ']' :: more)).take
          (suffix.map Char.toLower).length).map Char.toLower = suffix.map Char.toLower := by
        rw [List.length_map, List.take_left]
      have hstop := takeWhile_append_of_stop hdigits
        (show ∀ c ∈ (']' :: more).head?, c.isDigit = false by rintro c ⟨⟩; rfl)
      simp only [hname, find_suffix hmem hread, List.length_map, if_neg hshort, List.drop_left,
        hstop.1, List.isEmpty_iff, hne, false_or, List.head?_cons, ne_eq, not_true_eq_false,
        if_false]

theorem arrangement_of_vectorSuffixLength {n : Nat} (h : vectorSuffixLength name rest = some n) :
    isVectorRegister name = true ∧ Arrangement rest n := by
  unfold vectorSuffixLength at h
  split at h
  · rename_i rest hname
    refine ⟨hname, ?_⟩
    split at h
    · cases h
    · rename_i suffix hfind
      have hread : (rest.take suffix.length).map Char.toLower = suffix := by
        have hsome := List.find?_some hfind
        exact of_decide_eq_true hsome
      have hmem : suffix ∈ vectorSuffixes := List.mem_of_find?_eq_some hfind
      have hlength : (rest.take suffix.length).length = suffix.length := by
        exact (List.length_map Char.toLower).symm.trans (congrArg List.length hread)
      split at h
      · rename_i hlong
        cases h
        have harr := @Arrangement.whole (rest.take suffix.length) (rest.drop suffix.length)
          (by rwa [hread]) (by rwa [hlength])
        rwa [List.take_append_drop, hlength] at harr
      · rename_i hshort
        split at h
        · rename_i more hmore
          simp only at h
          split at h
          · cases h
          · rename_i hdigits
            obtain ⟨hne, hclose⟩ := not_or.mp hdigits
            cases h
            have hdrop : more.drop (more.takeWhile Char.isDigit).length =
                more.dropWhile Char.isDigit := by
              have hleft : (more.takeWhile Char.isDigit ++ more.dropWhile Char.isDigit).drop
                  (more.takeWhile Char.isDigit).length = more.dropWhile Char.isDigit :=
                List.drop_left
              rwa [List.takeWhile_append_dropWhile] at hleft
            rw [hdrop] at hclose
            obtain ⟨tail, htail⟩ : ∃ tail, more.dropWhile Char.isDigit = ']' :: tail := by
              cases hd : more.dropWhile Char.isDigit with
              | nil => rw [hd] at hclose; exact absurd (by simp) hclose
              | cons c tail =>
                  rw [hd] at hclose
                  simp only [List.head?_cons, ne_eq, Option.some.injEq, not_not] at hclose
                  exact ⟨tail, by rw [hclose]⟩
            have harr := @Arrangement.lane (rest.take suffix.length)
              (more.takeWhile Char.isDigit) tail (by rwa [hread]) (by rwa [hlength])
              (fun hnil => hne (List.isEmpty_iff.mpr hnil))
              (fun d hd => List.mem_takeWhile_imp hd)
            rwa [← htail, List.takeWhile_append_dropWhile, ← hmore, List.take_append_drop,
              hlength] at harr
        · cases h
  · cases h

/-- An arrangement is itself whatever follows it. -/
theorem Arrangement.take_append {n : Nat} (h : Arrangement rest n) (after : List Char) :
    Arrangement (rest.take n ++ after) n ∧ (rest.take n).length = n ∧
      (rest.take n).head? = some '.' := by
  cases h with
  | @whole suffix more hmem hlong =>
      have htake : ('.' :: (suffix ++ more)).take (1 + suffix.length) = '.' :: suffix := by
        rw [Nat.add_comm, List.take_succ_cons, List.take_left]
      rw [htake]
      exact ⟨.whole hmem hlong, by simp [Nat.add_comm], rfl⟩
  | @lane suffix digits more hmem hshort hne hdigits =>
      have htake : ('.' :: (suffix ++ '[' :: (digits ++ ']' :: more))).take
          (1 + suffix.length + 1 + digits.length + 1) =
            '.' :: (suffix ++ '[' :: (digits ++ [']'])) := by
        rw [show 1 + suffix.length + 1 + digits.length + 1 =
          (suffix ++ '[' :: (digits ++ [']'])).length + 1 by simp; omega, List.take_succ_cons]
        congr 1
        rw [show suffix ++ '[' :: (digits ++ ']' :: more) =
          (suffix ++ '[' :: (digits ++ [']'])) ++ more by simp, List.take_left]
      rw [htake]
      refine ⟨?_, by simp; omega, rfl⟩
      have harr := @Arrangement.lane suffix digits after hmem hshort hne hdigits
      rwa [show '.' :: (suffix ++ '[' :: (digits ++ ']' :: after)) =
        '.' :: (suffix ++ '[' :: (digits ++ [']'])) ++ after by simp] at harr

theorem dottedTail_take (h : Delimits after) {dotted : Bool} {s : List Char}
    (hs : dotted = true → s ≠ []) :
    dottedTail dotted (s.take (dottedTail dotted s) ++ after) = dottedTail dotted s ∧
      (s.take (dottedTail dotted s)).length = dottedTail dotted s := by
  have hend : dottedTail false after = 0 := by
    cases after with
    | nil => rfl
    | cons c rest =>
        have hc : c = ' ' ∨ c = ',' ∨ c = ']' ∨ c = '\x7d' := h c rfl
        rcases hc with rfl | rfl | rfl | rfl <;> rfl
  fun_induction dottedTail dotted s with
  | case1 c rest ih =>
      obtain ⟨htail, hlength⟩ := ih nofun
      rw [List.take_succ_cons, List.cons_append, dottedTail, htail, List.length_cons, hlength]
      exact ⟨rfl, rfl⟩
  | case2 c rest hc ih =>
      obtain ⟨htail, hlength⟩ := ih fun _ => List.cons_ne_nil c rest
      have htake : (c :: rest).take (dottedTail true (c :: rest)) =
          c :: rest.take (dottedTail false rest) := rfl
      rw [htake] at htail hlength
      rw [List.take_succ_cons, htake, List.length_cons, hlength]
      refine ⟨?_, rfl⟩
      show (if isIdContinue c then _ else _ : Nat) = _
      rw [if_pos hc]
      exact congrArg (· + 1) htail
  | case3 c rest hc => exact ⟨hend, rfl⟩
  | case4 c rest hdot hc ih =>
      obtain ⟨htail, hlength⟩ := ih nofun
      have hne : c ≠ '.' := by
        rintro rfl
        cases hc
      rw [List.take_succ_cons, List.cons_append, List.length_cons, hlength]
      refine ⟨?_, rfl⟩
      rw [dottedTail, if_pos hc, htail]
      intro c' rest' hc'
      exact absurd hc' hne
  | case5 c rest hdot hc => exact ⟨hend, rfl⟩
  | case6 dotted =>
      cases dotted with
      | true => exact absurd rfl (hs rfl)
      | false => exact ⟨hend, rfl⟩

theorem head_dropWhile {p : Char → Bool} {s : List Char} :
    ∀ c ∈ (s.dropWhile p).head?, p c = false := by
  intro c hc
  have hnot := List.head?_dropWhile_not p s
  rw [hc] at hnot
  exact hnot

/-- What is left of a name's tail before a delimiter does not go on with the name. -/
theorem stop_of_take {k : Nat} (h : Delimits after)
    (hrest : ∀ c ∈ rest.head?, isIdContinue c = false) :
    ∀ c ∈ (rest.take k ++ after).head?, isIdContinue c = false := by
  intro c hc
  cases k with
  | zero => exact h.not_of isIdContinue (by decide) c hc
  | succ k =>
      cases rest with
      | nil => exact h.not_of isIdContinue (by decide) c hc
      | cons d rest => exact hrest c hc

/-- How far an identifier reaches past the letters and digits it starts with. -/
def tailLength (name rest : List Char) : Nat :=
  match vectorSuffixLength name rest with
  | some n => n
  | none => if isVectorRegister name then 0 else dottedTail false rest

theorem identLength_eq (s : List Char) : identLength s = (s.takeWhile isIdContinue).length +
    tailLength (s.takeWhile isIdContinue) (s.dropWhile isIdContinue) := by
  unfold identLength tailLength
  simp only
  cases vectorSuffixLength (s.takeWhile isIdContinue) (s.dropWhile isIdContinue) with
  | some n => rfl
  | none =>
      simp only
      split <;> rfl

theorem tailLength_take (h : Delimits after) :
    tailLength name (rest.take (tailLength name rest) ++ after) = tailLength name rest ∧
      (rest.take (tailLength name rest)).length = tailLength name rest := by
  cases hvector : vectorSuffixLength name rest with
  | some n =>
      obtain ⟨hregister, harrangement⟩ := arrangement_of_vectorSuffixLength hvector
      obtain ⟨happend, htake, -⟩ := harrangement.take_append after
      have hn : tailLength name rest = n := by rw [tailLength, hvector]
      rw [hn]
      exact ⟨by rw [tailLength, vectorSuffixLength_of_arrangement hregister happend], htake⟩
  | none =>
      by_cases hregister : isVectorRegister name = true
      · have hzero : tailLength name rest = 0 := by
          rw [tailLength, hvector]
          exact if_pos hregister
        have hnone : vectorSuffixLength name after = none := by
          cases hsome : vectorSuffixLength name after with
          | none => rfl
          | some n =>
              obtain ⟨-, harrangement⟩ := arrangement_of_vectorSuffixLength hsome
              cases harrangement <;> exact absurd (h '.' rfl) (by decide)
        rw [hzero]
        refine ⟨?_, rfl⟩
        rw [List.take_zero, List.nil_append, tailLength, hnone]
        exact if_pos hregister
      · have htail : ∀ rest, tailLength name rest = dottedTail false rest := by
          intro rest
          have hnone : vectorSuffixLength name rest = none := by
            cases hsome : vectorSuffixLength name rest with
            | none => rfl
            | some n => exact absurd (arrangement_of_vectorSuffixLength hsome).1 hregister
          rw [tailLength, hnone]
          exact if_neg hregister
        simp only [htail]
        exact dottedTail_take h nofun

/-- An identifier is itself before a delimiter. -/
theorem identLength_take (h : Delimits after) (s : List Char) :
    identLength (s.take (identLength s) ++ after) = identLength s ∧
      (s.take (identLength s)).length = identLength s := by
  have hsplit : s = s.takeWhile isIdContinue ++ s.dropWhile isIdContinue :=
    List.takeWhile_append_dropWhile.symm
  have hname : ∀ c ∈ s.takeWhile isIdContinue, isIdContinue c = true :=
    fun c hc => List.mem_takeWhile_imp hc
  have hrest : ∀ c ∈ (s.dropWhile isIdContinue).head?, isIdContinue c = false := head_dropWhile
  have hlength := identLength_eq s
  generalize s.takeWhile isIdContinue = name at *
  generalize s.dropWhile isIdContinue = rest at *
  obtain ⟨htail, htake⟩ := @tailLength_take name rest after h
  have hident : s.take (identLength s) = name ++ rest.take (tailLength name rest) := by
    rw [hlength, hsplit, List.take_length_add_append]
  obtain ⟨htakeWhile, hdropWhile⟩ := takeWhile_append_of_stop hname (stop_of_take h hrest)
  rw [hident, List.append_assoc, identLength_eq, htakeWhile, hdropWhile, htail, hlength]
  exact ⟨rfl, by rw [List.length_append, htake]⟩

end Ident

section NextToken

variable {c : Char} {rest after : List Char} {line col : Nat}

theorem singleChar_of_isIdStart (hc : isIdStart c = true) : singleChar c = none := by
  unfold singleChar
  split <;> first | rfl | cases hc

theorem singleChar_of_isDigit (hc : c.isDigit = true) : singleChar c = none := by
  unfold singleChar
  split <;> first | rfl | cases hc

theorem not_isDigit_of_isIdStart (hc : isIdStart c = true) : c.isDigit = false := by
  by_contra hdigit
  have hdigit : c.isDigit = true := Bool.not_eq_false _ ▸ hdigit
  have hcases : c.isAlpha = true ∨ c = '_' := by
    rcases Bool.or_eq_true_iff.mp hc with h | h
    · exact .inl h
    · exact .inr (of_decide_eq_true h)
  rcases hcases with h | rfl
  · simp only [Char.isAlpha, Char.isUpper, Char.isLower, Char.isDigit, Bool.or_eq_true,
      Bool.and_eq_true, decide_eq_true_eq, ge_iff_le, UInt32.le_iff_toNat_le] at h hdigit
    simp at h hdigit
    omega
  · cases hdigit

theorem nextToken_ident (hc : isIdStart c = true) : nextToken c rest line col =
    .ok (.ident (String.ofList ((c :: rest).take (identLength (c :: rest)))),
      identLength (c :: rest)) := by
  have hne : ∀ d, isIdStart d = false → c ≠ d := by
    rintro d hd rfl
    rw [hc] at hd
    cases hd
  unfold nextToken
  simp only [singleChar_of_isIdStart hc, not_isDigit_of_isIdStart hc, hne '<' (by decide),
    hne '>' (by decide), hne '.' (by decide), hne '\'' (by decide), hne '"' (by decide), hc,
    if_true, if_false, Bool.false_eq_true]

/-- Whether a dot starts a directive or a dotted label. -/
def startsDirective (rest : List Char) : Bool :=
  rest.head?.any isIdStart ||
    ["2byte", "4byte", "8byte"].any fun d => d.toList.isPrefixOf rest

theorem nextToken_dot : nextToken '.' rest line col =
    if startsDirective rest then
      .ok (.directiveIdent (String.ofList ('.' :: rest.takeWhile isIdContinue)),
        (rest.takeWhile isIdContinue).length + 1)
    else .ok (.dot, 1) := rfl

theorem nextToken_at (h : rest.head?.any isIdStart = true) : nextToken '@' rest line col =
    .ok (.ident (String.ofList ('@' :: rest.takeWhile isIdContinue)),
      (rest.takeWhile isIdContinue).length + 1) := by
  unfold nextToken
  simp [singleChar, isIdStart, h]

/-- A name that lexes to its own token before a delimiter. -/
def Spelled (kind : TokenKind) : Prop :=
  ∀ name, kind = .ident name ∨ kind = .directiveIdent name →
    ∃ c rest, name.toList = c :: rest ∧ (∀ d ∈ c :: rest, isSpace d = false) ∧
      ∀ after, Delimits after → ∀ line col,
        nextToken c (rest ++ after) line col = .ok (kind, rest.length + 1)

theorem Spelled.of_not_name {kind : TokenKind}
    (h : ∀ name, kind ≠ .ident name ∧ kind ≠ .directiveIdent name) : Spelled kind := by
  rintro name (rfl | rfl)
  · exact absurd rfl (h name).1
  · exact absurd rfl (h name).2

theorem not_isSpace_of_range (h : 33 ≤ c.toNat ∧ c.toNat ≤ 126) : isSpace c = false := by
  unfold isSpace
  simp only [Bool.or_eq_false_iff, decide_eq_false_iff_not]
  omega

theorem isSpace_of_isIdContinue (hc : isIdContinue c = true) : isSpace c = false := by
  apply not_isSpace_of_range
  simp only [isIdContinue, Char.isAlpha, Char.isUpper, Char.isLower, Char.isDigit,
    Bool.or_eq_true, Bool.and_eq_true, decide_eq_true_eq, ge_iff_le,
    UInt32.le_iff_toNat_le] at hc
  rcases hc with hc | rfl
  · simp at hc
    omega
  · decide

theorem isIdContinue_of_isIdStart (hc : isIdStart c = true) : isIdContinue c = true := by
  rcases Bool.or_eq_true_iff.mp hc with h | h <;> simp [isIdContinue, h]

/-- A blank is no letter, so it is its own lower case. -/
theorem isSpace_of_toLower (hc : isSpace c.toLower = false) : isSpace c = false := by
  unfold Char.toLower at hc
  split at hc
  · rename_i hupper
    apply not_isSpace_of_range
    simp only [ge_iff_le, UInt32.le_iff_toNat_le] at hupper
    simp at hupper
    omega
  · exact hc

theorem not_isSpace_suffix {suffix : List Char}
    (h : suffix.map Char.toLower ∈ vectorSuffixes) : ∀ d ∈ suffix, isSpace d = false := by
  have hall : (vectorSuffixes.all fun s => s.all fun d => !isSpace d) = true := by
    decide
  intro d hd
  have hsuffix := List.all_eq_true.mp hall _ h
  have hlower := List.all_eq_true.mp hsuffix d.toLower (List.mem_map_of_mem hd)
  exact isSpace_of_toLower (Bool.not_eq_true' _ ▸ hlower)

/-- The characters of an arrangement are no blanks. -/
theorem Arrangement.not_isSpace {n : Nat} (h : Arrangement rest n) :
    ∀ d ∈ rest.take n, isSpace d = false := by
  cases h with
  | @whole suffix more hmem hlong =>
      rw [Nat.add_comm, List.take_succ_cons, List.take_left]
      intro d hd
      rcases List.mem_cons.mp hd with rfl | hd
      · rfl
      · exact not_isSpace_suffix hmem d hd
  | @lane suffix digits more hmem hshort hne hdigits =>
      rw [show '.' :: (suffix ++ '[' :: (digits ++ ']' :: more)) =
        ('.' :: (suffix ++ '[' :: (digits ++ [']']))) ++ more by simp,
        List.take_left' (by simp; omega)]
      intro d hd
      simp only [List.mem_cons, List.mem_append, List.not_mem_nil, or_false] at hd
      rcases hd with rfl | hd | rfl | hd | rfl
      · rfl
      · exact not_isSpace_suffix hmem d hd
      · rfl
      · exact isSpace_of_isIdContinue (by simp [isIdContinue, hdigits d hd])
      · rfl

theorem not_isSpace_dottedTail {dotted : Bool} {s : List Char}
    (hs : dotted = true → ∀ d ∈ s.head?, isSpace d = false) :
    ∀ d ∈ s.take (dottedTail dotted s), isSpace d = false := by
  fun_induction dottedTail dotted s with
  | case1 c rest ih =>
      intro d hd
      rcases List.mem_cons.mp hd with rfl | hd
      · exact hs rfl d rfl
      · exact ih nofun d hd
  | case2 c rest hc ih =>
      intro d hd
      rcases List.mem_cons.mp hd with rfl | hd
      · rfl
      · refine ih ?_ d hd
        rintro - d ⟨⟩
        exact isSpace_of_isIdContinue hc
  | case3 c rest hc => nofun
  | case4 c rest hdot hc ih =>
      intro d hd
      rcases List.mem_cons.mp hd with rfl | hd
      · exact isSpace_of_isIdContinue hc
      · exact ih nofun d hd
  | case5 c rest hdot hc => nofun
  | case6 dotted => nofun

/-- The characters of an identifier are no blanks. -/
theorem not_isSpace_ident (s : List Char) : ∀ d ∈ s.take (identLength s), isSpace d = false := by
  have htail : ∀ name rest : List Char, ∀ d ∈ rest.take (tailLength name rest),
      isSpace d = false := by
    intro name rest
    unfold tailLength
    split
    · rename_i n hn
      exact (arrangement_of_vectorSuffixLength hn).2.not_isSpace
    · split
      · nofun
      · exact not_isSpace_dottedTail nofun
  have htake : s.take (identLength s) = s.takeWhile isIdContinue ++
      (s.dropWhile isIdContinue).take
        (tailLength (s.takeWhile isIdContinue) (s.dropWhile isIdContinue)) := by
    rw [identLength_eq]
    conv_lhs => arg 2; rw [← List.takeWhile_append_dropWhile (p := isIdContinue) (l := s)]
    rw [List.take_length_add_append]
  intro d hd
  rw [htake] at hd
  rcases List.mem_append.mp hd with hd | hd
  · exact isSpace_of_isIdContinue (List.mem_takeWhile_imp hd)
  · exact htail _ _ d hd

theorem spelled_ident (hc : isIdStart c = true) :
    Spelled (.ident (String.ofList ((c :: rest).take (identLength (c :: rest))))) := by
  have hpos : ∃ n, identLength (c :: rest) = n + 1 := by
    have hcontinue : isIdContinue c = true := isIdContinue_of_isIdStart hc
    refine ⟨identLength (c :: rest) - 1, (Nat.succ_pred_eq_of_pos ?_).symm⟩
    rw [identLength_eq, List.takeWhile_cons, if_pos hcontinue, List.length_cons]
    omega
  obtain ⟨n, hn⟩ := hpos
  rintro name (heq | heq)
  · obtain rfl := (TokenKind.ident.inj heq).symm
    refine ⟨c, rest.take n, ?_, ?_, ?_⟩
    · rw [String.toList_ofList, hn, List.take_succ_cons]
    · have hspace := not_isSpace_ident (c :: rest)
      rwa [hn, List.take_succ_cons] at hspace
    · intro after hafter line col
      obtain ⟨hread, hlength⟩ := identLength_take hafter (c :: rest)
      rw [hn, List.take_succ_cons] at hread hlength
      rw [nextToken_ident hc, ← List.cons_append, hread, hn, List.take_succ_cons,
        List.take_left' hlength]
      rw [List.length_cons] at hlength
      rw [hlength]
  · cases heq

/-- A name before a delimiter is a run that stops there. -/
theorem takeWhile_name (hafter : Delimits after) :
    (rest.takeWhile isIdContinue ++ after).takeWhile isIdContinue = rest.takeWhile isIdContinue :=
  (takeWhile_append_of_stop (fun _ hc => List.mem_takeWhile_imp hc)
    (hafter.not_of isIdContinue (by decide))).1

theorem head_takeWhile_name (h : rest.head?.any isIdStart = true) :
    (rest.takeWhile isIdContinue ++ after).head?.any isIdStart = true := by
  cases rest with
  | nil => cases h
  | cons c rest =>
      have hc : isIdStart c = true := h
      have hcontinue : isIdContinue c = true := isIdContinue_of_isIdStart hc
      rw [List.takeWhile_cons, if_pos hcontinue]
      exact hc

theorem not_isSpace_cons (hc : isSpace c = false) :
    ∀ d ∈ c :: rest.takeWhile isIdContinue, isSpace d = false := by
  intro d hd
  rcases List.mem_cons.mp hd with rfl | hd
  · exact hc
  · exact isSpace_of_isIdContinue (List.mem_takeWhile_imp hd)

theorem spelled_at (h : rest.head?.any isIdStart = true) :
    Spelled (.ident (String.ofList ('@' :: rest.takeWhile isIdContinue))) := by
  rintro name (heq | heq)
  · obtain rfl := (TokenKind.ident.inj heq).symm
    refine ⟨'@', rest.takeWhile isIdContinue, String.toList_ofList,
      not_isSpace_cons (by decide), ?_⟩
    intro after hafter line col
    rw [nextToken_at (head_takeWhile_name h), takeWhile_name hafter]
  · cases heq

theorem startsDirective_takeWhile (h : startsDirective rest = true) :
    startsDirective (rest.takeWhile isIdContinue ++ after) = true := by
  rcases Bool.or_eq_true_iff.mp h with h | h
  · exact Bool.or_eq_true_iff.mpr (.inl (head_takeWhile_name h))
  · refine Bool.or_eq_true_iff.mpr (.inr ?_)
    obtain ⟨d, hd, hread⟩ := List.any_eq_true.mp h
    refine List.any_eq_true.mpr ⟨d, hd, ?_⟩
    have hall : ∀ d ∈ ["2byte", "4byte", "8byte"], d.toList.all isIdContinue = true := by
      decide
    obtain ⟨more, rfl⟩ := List.isPrefixOf_iff_prefix.mp hread
    rw [List.takeWhile_append_of_pos (List.all_eq_true.mp (hall d hd)), List.append_assoc]
    exact List.isPrefixOf_iff_prefix.mpr (List.prefix_append _ _)

theorem spelled_directive (h : startsDirective rest = true) :
    Spelled (.directiveIdent (String.ofList ('.' :: rest.takeWhile isIdContinue))) := by
  rintro name (heq | heq)
  · cases heq
  · obtain rfl := (TokenKind.directiveIdent.inj heq).symm
    refine ⟨'.', rest.takeWhile isIdContinue, String.toList_ofList,
      not_isSpace_cons (by decide), ?_⟩
    intro after hafter line col
    rw [nextToken_dot, if_pos (startsDirective_takeWhile h), takeWhile_name hafter]

theorem singleChar_not_name {k : TokenKind} (h : singleChar c = some k) (name : String) :
    k ≠ .ident name ∧ k ≠ .directiveIdent name := by
  unfold singleChar at h
  split at h <;> first | (cases h; exact ⟨nofun, nofun⟩) | cases h

theorem parseNumber_not_name {s : List Char} {k : TokenKind} {used : Nat}
    (h : parseNumber s line = .ok (k, used)) (name : String) :
    k ≠ .ident name ∧ k ≠ .directiveIdent name := by
  unfold parseNumber at h
  simp only at h
  repeat' split at h
  all_goals first | (cases h; exact ⟨nofun, nofun⟩) | cases h

/-- A name that is read is spelled as it is read. -/
theorem spelled_of_nextToken {k : TokenKind} {used : Nat}
    (h : nextToken c rest line col = .ok (k, used)) : Spelled k := by
  unfold nextToken at h
  split at h
  · rename_i k' hk'
    cases h
    exact .of_not_name (singleChar_not_name hk')
  simp only at h
  split at h
  · split at h <;> cases h
    exact .of_not_name fun name => ⟨nofun, nofun⟩
  split at h
  · split at h <;> cases h
    exact .of_not_name fun name => ⟨nofun, nofun⟩
  split at h
  · split at h
    · rename_i hstarts
      cases h
      exact spelled_directive hstarts
    · cases h
      exact .of_not_name fun name => ⟨nofun, nofun⟩
  split at h
  · exact .of_not_name (parseNumber_not_name h)
  split at h
  · obtain ⟨p, -, hp⟩ := bind_eq_ok h
    cases hp
    exact .of_not_name fun name => ⟨nofun, nofun⟩
  split at h
  · obtain ⟨p, -, hp⟩ := bind_eq_ok h
    cases hp
    exact .of_not_name fun name => ⟨nofun, nofun⟩
  split at h
  · rename_i hstart
    cases h
    exact spelled_ident hstart
  split at h
  · rename_i hat
    obtain ⟨rfl, hhead⟩ := hat
    cases h
    exact spelled_at hhead
  split at h <;> cases h

end NextToken

section Numbers

variable {digits fraction after : List Char} {line : Nat}

theorem isIntBody_of_isDigit {c : Char} (hc : c.isDigit = true) : isIntBody c = true := by
  simp [isIntBody, isHexDigit, hc]

/-- Digits name no radix. -/
theorem not_radix_float (hdigits : ∀ c ∈ digits, c.isDigit = true)
    (hafter : ∀ c ∈ after.head?, c ≠ 'r' ∧ c ≠ 'R') (hne : digits ≠ []) (rest : List Char) :
    digits ++ after ≠ '0' :: 'r' :: rest ∧ digits ++ after ≠ '0' :: 'R' :: rest := by
  have hsecond : ∀ c ∈ (digits ++ after).tail.head?, c ≠ 'r' ∧ c ≠ 'R' := by
    intro c hc
    match digits, hne with
    | [_], _ => exact hafter c hc
    | _ :: d :: _, _ =>
        obtain rfl : d = c := Option.some.inj hc
        have hd : d.isDigit = true := hdigits d (.tail _ (.head _))
        constructor <;> (rintro rfl; cases hd)
  constructor
  · intro heq
    exact (hsecond 'r' (by rw [heq]; rfl)).1 rfl
  · intro heq
    exact (hsecond 'R' (by rw [heq]; rfl)).2 rfl

theorem not_isExponential (hdigits : ∀ c ∈ digits, c.isDigit = true) :
    isExponential digits = false := by
  have hdrop : digits.dropWhile (fun c => !(decide (c = 'e') || decide (c = 'E'))) = [] := by
    rw [List.dropWhile_eq_nil_iff]
    intro c hc
    have hdigit := hdigits c hc
    have hlower : c ≠ 'e' := by rintro rfl; cases hdigit
    have hupper : c ≠ 'E' := by rintro rfl; cases hdigit
    simp [hlower, hupper]
  unfold isExponential
  simp only
  split
  · rename_i heq
    exact absurd (hdrop.symm.trans heq) nofun
  · rfl

/-- Digits before a delimiter are an integer. -/
theorem parseNumber_digits (hdigits : ∀ c ∈ digits, c.isDigit = true) (hne : digits ≠ [])
    (hafter : Delimits after) : parseNumber (digits ++ after) line =
      match parseInt digits with
      | some value => .ok (.intLit value, digits.length)
      | none => .error (.parseError line (integerError digits)) := by
  have hradix := @not_radix_float digits after hdigits (fun c hc => by
    rcases hafter c hc with rfl | rfl | rfl | rfl <;> decide) hne
  obtain ⟨htake, hdrop⟩ := takeWhile_append_of_stop
    (fun c hc => isIntBody_of_isDigit (hdigits c hc)) (hafter.not_of isIntBody (by decide))
  unfold parseNumber
  simp only
  split
  · rename_i rest heq
    exact absurd heq (hradix rest).1
  · rename_i rest heq
    exact absurd heq (hradix rest).2
  · simp only [htake, hdrop, not_isExponential hdigits]
    refine (if_neg ?_).trans ((if_neg Bool.false_ne_true).trans ?_)
    · rintro ⟨-, hfraction⟩
      cases after with
      | nil => exact hfraction rfl
      | cons c rest =>
          rcases hafter c rfl with rfl | rfl | rfl | rfl <;> exact hfraction rfl
    · rfl

/-- Digits, a dot and digits read as a float. -/
theorem exists_parse_decimal (hdigits : ∀ c ∈ digits, c.isDigit = true) (hne : digits ≠ [])
    (hfraction : ∀ c ∈ fraction, c.isDigit = true) :
    ∃ bits, F64.parse (digits ++ '.' :: fraction) = some bits := by
  have hsign : F64.takeSign (digits ++ '.' :: fraction) = (false, digits ++ '.' :: fraction) := by
    cases digits with
    | nil => exact absurd rfl hne
    | cons c digits =>
        have hc := hdigits c (.head _)
        unfold F64.takeSign
        split
        · rename_i heq
          cases heq
          cases hc
        · rename_i heq
          cases heq
          cases hc
        · rfl
  obtain ⟨htake, hdrop⟩ := takeWhile_append_of_stop hdigits
    (show ∀ c ∈ ('.' :: fraction).head?, c.isDigit = false by rintro c ⟨⟩; rfl)
  have hwhole : fraction.takeWhile Char.isDigit = fraction ∧
      fraction.dropWhile Char.isDigit = [] := by
    have hstop := takeWhile_append_of_stop hfraction
      (show ∀ c ∈ ([] : List Char).head?, c.isDigit = false by rintro c ⟨⟩)
    rwa [List.append_nil] at hstop
  unfold F64.parse
  simp only [hsign, htake, hdrop, hwhole.1, hwhole.2]
  rw [if_neg fun h => hne (List.isEmpty_iff.mp h.1)]
  exact ⟨_, rfl⟩

/-- Digits, a dot and digits before a delimiter are a float. -/
theorem parseNumber_decimal (hdigits : ∀ c ∈ digits, c.isDigit = true) (hne : digits ≠ [])
    (hfraction : ∀ c ∈ fraction, c.isDigit = true) (hfne : fraction ≠ [])
    (hafter : Delimits after) {bits : BitVec 64}
    (hbits : F64.parse (digits ++ '.' :: fraction) = some bits) :
    parseNumber (digits ++ '.' :: fraction ++ after) line =
      .ok (.floatLit bits, (digits ++ '.' :: fraction).length) := by
  have hsplit : digits ++ '.' :: fraction ++ after = digits ++ ('.' :: (fraction ++ after)) := by
    simp
  have hradix := @not_radix_float digits ('.' :: (fraction ++ after)) hdigits
    (by rintro c ⟨⟩; decide) hne
  obtain ⟨htake, hdrop⟩ := takeWhile_append_of_stop
    (fun c hc => isIntBody_of_isDigit (hdigits c hc))
    (show ∀ c ∈ ('.' :: (fraction ++ after)).head?, isIntBody c = false by rintro c ⟨⟩; rfl)
  have hfractionTake := (takeWhile_append_of_stop hfraction
    (hafter.not_of Char.isDigit (by decide))).1
  have hused : (digits ++ '.' :: (fraction ++ after)).take
      (digits.length + 1 + fraction.length) = digits ++ '.' :: fraction := by
    rw [← hsplit]
    exact List.take_left' (by simp; omega)
  have hexponent : exponentLength ((digits ++ '.' :: (fraction ++ after)).drop
      (digits.length + 1 + fraction.length)) = 0 := by
    rw [← hsplit, List.drop_left' (by simp; omega)]
    cases after with
    | nil => rfl
    | cons c rest => rcases hafter c rfl with rfl | rfl | rfl | rfl <;> rfl
  rw [hsplit]
  unfold parseNumber
  simp only
  split
  · rename_i rest heq
    exact absurd heq (hradix rest).1
  · rename_i rest heq
    exact absurd heq (hradix rest).2
  · simp only [htake, hdrop, hfractionTake, hexponent, Nat.add_zero, hused]
    rw [if_pos ⟨List.all_eq_true.mpr hdigits, fun hzero => hfne (List.length_eq_zero_iff.mp hzero)⟩,
      hbits]
    simp
    omega

end Numbers

section Reading

variable {c : Char} {text after : List Char} {line col : Nat}

/-- The characters of a token already read are passed over. -/
theorem lexFrom_skip (text after : List Char) (line col : Nat) :
    ∃ col', lexFrom text.length (text ++ after) line col = lexFrom 0 after line col' := by
  induction text generalizing col with
  | nil => exact ⟨col, rfl⟩
  | cons c text ih => exact ih (col + c.utf8Size)

theorem lexFrom_cons (hc : isSpace c = false) (rest : List Char) :
    lexFrom 0 (c :: rest) line col = do
      let (kind, used) ← nextToken c rest line col
      let tokens ← lexFrom (used - 1) rest line (col + c.utf8Size)
      return ⟨kind, line, col⟩ :: tokens := by
  have hne : ∀ d, isSpace d = true → c ≠ d := by
    rintro d hd rfl
    rw [hd] at hc
    cases hc
  rw [lexFrom, if_neg (hne '\n' rfl), if_neg]
  rintro (h | h | h) <;> exact absurd h (hne _ rfl)

theorem lexFrom_token {kind : TokenKind} (hc : isSpace c = false)
    (hnext : nextToken c (text ++ after) line col = .ok (kind, text.length + 1)) :
    ∃ col', lexFrom 0 (c :: (text ++ after)) line col =
      (lexFrom 0 after line col').map (⟨kind, line, col⟩ :: ·) := by
  obtain ⟨col', hskip⟩ := lexFrom_skip text after line (col + c.utf8Size)
  refine ⟨col', ?_⟩
  rw [lexFrom_cons hc, hnext]
  show (lexFrom text.length (text ++ after) line (col + c.utf8Size) >>= fun tokens =>
    .ok (⟨kind, line, col⟩ :: tokens)) = _
  rw [hskip]
  cases lexFrom 0 after line col' <;> rfl

/-- Before a delimiter the text lexes to tokens of these kinds, or to an error. -/
def Reads (text : List Char) (reading : Option (List TokenKind)) : Prop :=
  ∀ after, Delimits after → ∀ line col,
    match reading with
    | some kinds => ∃ toks col', toks.map Token.kind = kinds ∧
        lexFrom 0 (text ++ after) line col = (lexFrom 0 after line col').map (toks ++ ·)
    | none => ∃ e, lexFrom 0 (text ++ after) line col = .error e

theorem Reads.token {kind : TokenKind} (hc : isSpace c = false)
    (hnext : ∀ after, Delimits after → ∀ line col,
      nextToken c (text ++ after) line col = .ok (kind, text.length + 1)) :
    Reads (c :: text) (some [kind]) := by
  intro after hafter line col
  obtain ⟨col', hlex⟩ := lexFrom_token hc (hnext after hafter line col)
  exact ⟨[⟨kind, line, col⟩], col', rfl, hlex⟩

theorem Reads.single {kind : TokenKind} (hkind : singleChar c = some kind)
    (hc : isSpace c = false) : Reads [c] (some [kind]) := by
  apply Reads.token hc
  intro after _ line col
  unfold nextToken
  rw [hkind]
  rfl

/-- A minus sign is a token of its own. -/
theorem Reads.minus {reading : Option (List TokenKind)} (h : Reads text reading) :
    Reads ('-' :: text) (reading.map (.minus :: ·)) := by
  intro after hafter line col
  have hnext : nextToken '-' (text ++ after) line col = .ok (.minus, ([] : List Char).length + 1) :=
    rfl
  obtain ⟨col', hlex⟩ := @lexFrom_token _ [] _ _ _ _ (by decide) hnext
  have hlex : lexFrom 0 ('-' :: (text ++ after)) line col =
    (lexFrom 0 (text ++ after) line col').map (⟨.minus, line, col⟩ :: ·) := hlex
  have hrest := h after hafter line col'
  cases reading with
  | none =>
      obtain ⟨e, he⟩ := hrest
      refine ⟨e, ?_⟩
      rw [List.cons_append, hlex, he]
      rfl
  | some kinds =>
      obtain ⟨toks, col'', rfl, hrest⟩ := hrest
      refine ⟨⟨.minus, line, col⟩ :: toks, col'', rfl, ?_⟩
      rw [List.cons_append, hlex, hrest]
      cases lexFrom 0 after line col'' <;> rfl

theorem Spelled.reads {kind : TokenKind} {name : String} (h : Spelled kind)
    (hkind : kind = .ident name ∨ kind = .directiveIdent name) :
    Reads name.toList (some [kind]) := by
  obtain ⟨c, rest, hname, hspace, hread⟩ := h name hkind
  rw [hname]
  exact .token (hspace c (.head _)) hread

theorem nextToken_digit {rest : List Char} (hc : c.isDigit = true) :
    nextToken c rest line col = parseNumber (c :: rest) line := by
  have hne : ∀ d, d.isDigit = false → c ≠ d := by
    rintro d hd rfl
    rw [hc] at hd
    cases hd
  unfold nextToken
  simp only [singleChar_of_isDigit hc, hne '<' (by decide), hne '>' (by decide),
    hne '.' (by decide), hc, if_true, if_false]

theorem not_isSpace_of_isDigit (hc : c.isDigit = true) : isSpace c = false :=
  isSpace_of_isIdContinue (by simp [isIdContinue, hc])

end Reading

section Printed

/-- The number a printed text without a sign reads as; `inf` and `NaN` are names. -/
def unsignedReading (text : List Char) : Option TokenKind :=
  if text.head?.any isIdStart then some (.ident (String.ofList text))
  else if '.' ∈ text then (F64.parse text).map .floatLit
  else (parseInt text).map .intLit

def printedReading (text : List Char) : Option (List TokenKind) :=
  match text with
  | '-' :: text => ((unsignedReading text).map fun kind => [kind]).map (.minus :: ·)
  | text => (unsignedReading text).map fun kind => [kind]

/-- What a token's text reads as, `none` when it is an error. -/
def readKind : TokenKind → Option (List TokenKind)
  | .intLit v => printedReading (i64Text v).toList
  | .floatLit bits => printedReading (F64.display bits)
  | .charLit v => printedReading (Nat.toDigits 10 v.toNat)
  | kind => some [kind]

/-- How a number prints, its sign aside. -/
inductive Printed : List Char → Prop
  | digits {digits : List Char} (hne : digits ≠ []) (hdigits : ∀ c ∈ digits, c.isDigit = true) :
      Printed digits
  | decimal {digits fraction : List Char} (hne : digits ≠ [])
      (hdigits : ∀ c ∈ digits, c.isDigit = true) (hfne : fraction ≠ [])
      (hfraction : ∀ c ∈ fraction, c.isDigit = true) : Printed (digits ++ '.' :: fraction)
  | inf : Printed ['i', 'n', 'f']
  | nan : Printed ['N', 'a', 'N']

theorem not_isIdStart_of_isDigit {c : Char} (hc : c.isDigit = true) : isIdStart c = false := by
  by_contra hstart
  have hdigit := not_isDigit_of_isIdStart (Bool.not_eq_false _ ▸ hstart : isIdStart c = true)
  rw [hc] at hdigit
  cases hdigit

theorem Printed.reads {text : List Char} (h : Printed text) :
    Reads text ((unsignedReading text).map fun kind => [kind]) := by
  cases h with
  | digits hne hdigits =>
      match text, hne with
      | c :: rest, hne =>
          have hc : c.isDigit = true := hdigits c (.head _)
          have hdot : '.' ∉ c :: rest := fun hmem => absurd (hdigits '.' hmem) (by decide)
          have hhead : (c :: rest).head?.any isIdStart = false := not_isIdStart_of_isDigit hc
          rw [unsignedReading, if_neg (by rw [hhead]; exact Bool.false_ne_true), if_neg hdot]
          have hnext : ∀ after, Delimits after → ∀ line col, nextToken c (rest ++ after) line col =
              _ := fun after hafter line col =>
            (nextToken_digit hc).trans (parseNumber_digits hdigits hne hafter)
          cases hvalue : parseInt (c :: rest) with
          | some v =>
              apply Reads.token (not_isSpace_of_isDigit hc)
              intro after hafter line col
              rw [hnext after hafter, hvalue]
              rfl
          | none =>
              intro after hafter line col
              refine ⟨.parseError line (integerError (c :: rest)), ?_⟩
              rw [List.cons_append, lexFrom_cons (not_isSpace_of_isDigit hc), hnext after hafter,
                hvalue]
              rfl
  | @decimal digits fraction hne hdigits hfne hfraction =>
      obtain ⟨bits, hbits⟩ := exists_parse_decimal hdigits hne hfraction
      match digits, hne with
      | c :: rest, hne =>
          have hc : c.isDigit = true := hdigits c (.head _)
          have hhead : (c :: rest ++ '.' :: fraction).head?.any isIdStart = false :=
            not_isIdStart_of_isDigit hc
          rw [unsignedReading, if_neg (by rw [hhead]; exact Bool.false_ne_true),
            if_pos (List.mem_append_right _ (.head _)), hbits]
          apply Reads.token (not_isSpace_of_isDigit hc)
          intro after hafter line col
          rw [nextToken_digit hc]
          exact parseNumber_decimal hdigits hne hfraction hfne hafter hbits
  | inf =>
      have hspelled : Spelled (.ident (String.ofList ['i', 'n', 'f'])) :=
        @spelled_ident 'i' ['n', 'f'] (by decide)
      have hreads := hspelled.reads (.inl rfl)
      rwa [String.toList_ofList] at hreads
  | nan =>
      have hspelled : Spelled (.ident (String.ofList ['N', 'a', 'N'])) :=
        @spelled_ident 'N' ['a', 'N'] (by decide)
      have hreads := hspelled.reads (.inl rfl)
      rwa [String.toList_ofList] at hreads

/-- A printed number starts with no minus sign of its own. -/
theorem Printed.head_ne {text : List Char} (h : Printed text) (rest : List Char) :
    text ≠ '-' :: rest := by
  have hdigit : ∀ c : Char, c.isDigit = true → c ≠ '-' := by
    rintro c hc rfl
    cases hc
  cases h with
  | digits hne hdigits =>
      rintro rfl
      exact hdigit _ (hdigits _ (.head _)) rfl
  | @decimal digits fraction hne hdigits hfne hfraction =>
      match digits, hne with
      | c :: digits, _ =>
          intro heq
          exact hdigit c (hdigits c (.head _)) (List.cons.inj heq).1
  | inf => nofun
  | nan => nofun

/-- What a number prints as reads back, the sign as an operator. -/
theorem reads_printed {text : List Char} (h : Printed text) :
    Reads text (printedReading text) ∧ Reads ('-' :: text) (printedReading ('-' :: text)) := by
  constructor
  · have heq : printedReading text = (unsignedReading text).map fun kind => [kind] := by
      unfold printedReading
      split
      · exact absurd rfl (h.head_ne _)
      · rfl
    rw [heq]
    exact h.reads
  · exact h.reads.minus

theorem printed_toDigits (n : Nat) : Printed (Nat.toDigits 10 n) := by
  have hdigits : ∀ c ∈ Nat.toDigits 10 n, c.isDigit = true := fun c hc =>
    Nat.isDigit_of_mem_toDigits (by decide) (by decide) hc
  exact .digits Nat.toDigits_ne_nil hdigits

theorem printed_positional (digits : Nat) (power : Int) :
    Printed (F64.positional digits power) := by
  unfold F64.positional
  split
  · exact printed_toDigits _
  · simp only
    split
    · exact printed_toDigits _
    · rename_i hne
      have hdigit : ∀ {n : Nat}, ∀ c ∈ Nat.toDigits 10 n, c.isDigit = true := fun c hc =>
        Nat.isDigit_of_mem_toDigits (by decide) (by decide) hc
      refine .decimal Nat.toDigits_ne_nil hdigit (fun hnil => hne (List.isEmpty_iff.mpr hnil)) ?_
      intro c hc
      have hmem := (List.dropWhile_sublist _).subset (List.mem_reverse.mp hc)
      rcases List.mem_append.mp (List.mem_reverse.mp hmem) with h | h
      · rw [List.eq_of_mem_replicate h]
        rfl
      · exact hdigit c h

/-- A double prints as a number, `inf` or `NaN`, which a minus sign may precede. -/
theorem printed_display (bits : BitVec 64) :
    ∃ text, Printed text ∧ (F64.display bits = text ∨ F64.display bits = '-' :: text) := by
  have hsign : ∀ {text : List Char}, Printed text → ∃ text', Printed text' ∧
      ((if bits.msb then ['-'] else []) ++ text = text' ∨
        (if bits.msb then ['-'] else []) ++ text = '-' :: text') := by
    intro text h
    refine ⟨text, h, ?_⟩
    split
    · exact .inr rfl
    · exact .inl rfl
  unfold F64.display
  simp only
  split
  · exact ⟨_, .nan, .inl rfl⟩
  split
  · exact hsign .inf
  split
  · exact hsign (printed_toDigits 0)
  · exact hsign (printed_positional _ _)

/-- An integer prints as its magnitude, after a minus sign when it is negative. -/
theorem i64Text_eq (v : BitVec 64) : (i64Text v).toList =
    if v.toInt < 0 then '-' :: Nat.toDigits 10 v.toInt.natAbs
    else Nat.toDigits 10 v.toInt.toNat := by
  have hnat : ∀ n : Nat, (toString n).toList = Nat.toDigits 10 n := fun n => by
    show (Nat.repr n).toList = _
    unfold Nat.repr
    rw [String.toList_ofList]
  unfold i64Text
  generalize v.toInt = n
  cases n with
  | ofNat n =>
      rw [if_neg (show ¬Int.ofNat n < 0 from Int.not_lt.mpr (Int.natCast_nonneg n))]
      exact hnat n
  | negSucc n =>
      rw [if_pos (Int.negSucc_lt_zero n)]
      show ("-" ++ toString (n + 1)).toList = _
      rw [String.toList_append, hnat]
      rfl

theorem printed_i64Text (v : BitVec 64) :
    ∃ text, Printed text ∧ ((i64Text v).toList = text ∨ (i64Text v).toList = '-' :: text) := by
  rw [i64Text_eq]
  split
  · exact ⟨_, printed_toDigits _, .inr rfl⟩
  · exact ⟨_, printed_toDigits _, .inl rfl⟩

theorem reads_number {text : List Char}
    (h : ∃ digits, Printed digits ∧ (text = digits ∨ text = '-' :: digits)) :
    Reads text (printedReading text) := by
  obtain ⟨digits, hdigits, rfl | rfl⟩ := h
  · exact (reads_printed hdigits).1
  · exact (reads_printed hdigits).2

theorem reads_tokenText {kind : TokenKind} (h : Spelled kind)
    (hstring : ∀ bytes, kind ≠ .stringLit bytes) : Reads (tokenText kind) (readKind kind) := by
  cases kind with
  | ident name => exact h.reads (.inl rfl)
  | directiveIdent name => exact h.reads (.inr rfl)
  | intLit v => exact reads_number (printed_i64Text v)
  | floatLit bits => exact reads_number (printed_display bits)
  | charLit v => exact reads_number ⟨_, printed_toDigits _, .inl rfl⟩
  | stringLit bytes => exact absurd rfl (hstring bytes)
  | lShift => exact .token (by decide) fun after _ line col => rfl
  | rShift => exact .token (by decide) fun after _ line col => rfl
  | dot =>
      apply Reads.token (by decide)
      intro after hafter line col
      have hstarts : startsDirective after = false := by
        cases after with
        | nil => rfl
        | cons c rest => rcases hafter c rfl with rfl | rfl | rfl | rfl <;> rfl
      rw [List.nil_append, nextToken_dot, hstarts]
      rfl
  | _ => exact .single rfl (by decide)

end Printed

end Lexer

end Playground
