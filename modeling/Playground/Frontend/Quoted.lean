/-
Where a literal ends: the lexer's string and character literals are quoted texts, closed
by the first quote of their kind that no backslash escapes.
-/
import Playground.Frontend.Lexer

namespace Playground

namespace Lexer

/-- What follows an opening quote, up to the closing one and with it. -/
inductive Closed (q : Char) : List Char → Prop
  | quote : Closed q [q]
  | escape (c : Char) {t : List Char} (ht : Closed q t) : Closed q ('\\' :: c :: t)
  | char {c : Char} {t : List Char} (hquote : c ≠ q) (hescape : c ≠ '\\') (ht : Closed q t) :
      Closed q (c :: t)

theorem Closed.ne_nil {q : Char} {t : List Char} (h : Closed q t) : t ≠ [] := by
  cases h <;> simp

theorem Closed.eq_of_append {q : Char} {t u r s : List Char} (hq : q ≠ '\\') (ht : Closed q t)
    (hu : Closed q u) (h : t ++ r = u ++ s) : t = u := by
  induction ht generalizing u with
  | quote =>
      cases hu with
      | quote => rfl
      | escape c hu => exact absurd (List.cons.inj h).1 hq
      | char hquote hescape hu => exact absurd (List.cons.inj h).1.symm hquote
  | escape c ht ih =>
      cases hu with
      | quote => exact absurd (List.cons.inj h).1.symm hq
      | escape d hu =>
          obtain ⟨rfl, hrest⟩ := List.cons.inj (List.cons.inj h).2
          rw [ih hu hrest]
      | char hquote hescape hu => exact absurd (List.cons.inj h).1.symm hescape
  | char hquote hescape ht ih =>
      cases hu with
      | quote => exact absurd (List.cons.inj h).1 hquote
      | escape d hu => exact absurd (List.cons.inj h).1 hescape
      | char hquote' hescape' hu =>
          obtain ⟨rfl, hrest⟩ := List.cons.inj h
          rw [ih hu hrest]

/-- A character that neither closes, escapes nor ends a line. -/
def Ordinary (c : Char) : Prop := c ≠ '"' ∧ c ≠ '\\' ∧ c ≠ '\n'

theorem ordinary_of_isHexDigit {c : Char} (h : isHexDigit c = true) : Ordinary c := by
  refine ⟨?_, ?_, ?_⟩ <;>
  · rintro rfl
    exact absurd h (by decide)

theorem isHexDigit_of_isDigit {c : Char} (h : c.isDigit = true) : isHexDigit c = true := by
  simp [isHexDigit, h]

section
variable {p : Char → Bool} {s : List Char}

/-- A run that ends inside the first `k` characters is the same whatever follows them. -/
theorem takeWhile_take_append {k : Nat} (hk : (s.takeWhile p).length < k) (hlen : k ≤ s.length)
    (after : List Char) : (s.take k ++ after).takeWhile p = s.takeWhile p := by
  induction s generalizing k with
  | nil => simp at hlen; omega
  | cons c s ih =>
      obtain ⟨k, rfl⟩ : ∃ j, k = j + 1 := ⟨k - 1, by omega⟩
      by_cases hc : p c = true
      · rw [List.takeWhile_cons, if_pos hc, List.length_cons] at hk
        rw [List.take_succ_cons, List.cons_append, List.takeWhile_cons, if_pos hc,
          List.takeWhile_cons, if_pos hc, ih (by omega) (by simpa using hlen)]
      · rw [List.take_succ_cons, List.cons_append, List.takeWhile_cons, if_neg hc,
          List.takeWhile_cons, if_neg hc]

end

/-- The shape of an escape: one character of any kind but a line end, then digits. -/
theorem of_decodeStringEscape {s : List Char} {line used : Nat} {out : List Byte}
    (h : decodeStringEscape s line = .ok (out, used)) :
    ∃ c more, s = c :: more ∧ c ≠ '\n' ∧ 1 ≤ used ∧
      ∀ d ∈ more.take (used - 1), Ordinary d := by
  cases s with
  | nil => simp [decodeStringEscape] at h
  | cons c more =>
      have hone (hc : c ≠ '\n') : ∃ c' more', c :: more = c' :: more' ∧ c' ≠ '\n' ∧ 1 ≤ 1 ∧
          ∀ d ∈ more'.take (1 - 1), Ordinary d :=
        ⟨c, more, rfl, hc, Nat.le_refl 1, by simp⟩
      have hprefix {q : Char → Bool} (hq : ∀ d, q d = true → isHexDigit d = true)
          (s : List Char) : ∀ d ∈ s.take (s.takeWhile q).length, Ordinary d := by
        intro d hd
        rw [← List.prefix_iff_eq_take.1 (List.takeWhile_prefix q)] at hd
        exact ordinary_of_isHexDigit (hq d (List.mem_takeWhile_imp hd))
      simp only [decodeStringEscape] at h
      by_cases hdigit : c.isDigit = true
      · rw [if_pos hdigit] at h
        obtain ⟨-, rfl⟩ := Prod.mk.inj (Except.ok.inj h)
        rw [List.take_succ_cons, List.takeWhile_cons, if_pos hdigit]
        refine ⟨c, more, rfl, ?_, by simp, fun d hd => ?_⟩
        · rintro rfl
          exact absurd hdigit (by decide)
        · rw [List.length_cons, Nat.add_sub_cancel] at hd
          refine hprefix (fun d hd => isHexDigit_of_isDigit hd) (more.take 2) d ?_
          rw [List.take_take]
          have hle := (List.takeWhile_prefix Char.isDigit (l := more.take 2)).length_le
          rw [List.length_take] at hle
          rwa [show min ((more.take 2).takeWhile Char.isDigit).length 2 =
            ((more.take 2).takeWhile Char.isDigit).length by omega]
      · rw [if_neg hdigit] at h
        by_cases hv : c = 'v'
        · rw [if_pos hv] at h
          obtain ⟨-, rfl⟩ := Prod.mk.inj (Except.ok.inj h)
          exact hone (by rw [hv]; decide)
        · rw [if_neg hv] at h
          by_cases hend : c = '\n' ∨ c = '\r'
          · simp [hend] at h
          · rw [if_neg hend] at h
            have hc : c ≠ '\n' := fun heq => hend (Or.inl heq)
            by_cases hx : c = 'x' ∨ c = 'X'
            · rw [if_pos hx] at h
              obtain ⟨-, rfl⟩ := Prod.mk.inj (Except.ok.inj h)
              exact ⟨c, more, rfl, hc, by omega, hprefix (fun _ hd => hd) more⟩
            · rw [if_neg hx] at h
              obtain ⟨-, rfl⟩ := Prod.mk.inj (Except.ok.inj h)
              exact hone hc

/-- An escape reads the same on any line, whatever follows the character after it. -/
theorem decodeStringEscape_take {s : List Char} {line used k : Nat} {out : List Byte}
    (h : decodeStringEscape s line = .ok (out, used)) (hk : used < k) (hlen : k ≤ s.length)
    (after : List Char) (line' : Nat) :
    decodeStringEscape (s.take k ++ after) line' = .ok (out, used) := by
  cases s with
  | nil => simp [decodeStringEscape] at h
  | cons c more =>
      obtain ⟨k, rfl⟩ : ∃ j, k = j + 1 := ⟨k - 1, by omega⟩
      rw [List.length_cons] at hlen
      rw [List.take_succ_cons, List.cons_append]
      simp only [decodeStringEscape] at h ⊢
      by_cases hdigit : c.isDigit = true
      · rw [if_pos hdigit] at h ⊢
        have hused : ((c :: more).take 3).takeWhile Char.isDigit =
            ((c :: (more.take k ++ after)).take 3).takeWhile Char.isDigit := by
          rw [List.take_succ_cons, List.take_succ_cons, List.takeWhile_cons, if_pos hdigit,
            List.takeWhile_cons, if_pos hdigit]
          congr 1
          obtain ⟨-, hlength⟩ := Prod.mk.inj (Except.ok.inj h)
          rw [List.take_succ_cons, List.takeWhile_cons, if_pos hdigit, List.length_cons] at hlength
          by_cases hshort : ((more.take 2).takeWhile Char.isDigit).length < min 2 more.length
          · by_cases hk2 : 2 ≤ k
            · rw [List.take_append_of_le_length (by simp; omega), List.take_take,
                Nat.min_eq_left hk2]
            · have hrun := takeWhile_take_append (p := Char.isDigit) (s := more.take 2) (k := k)
                (by omega) (by simp; omega) (after.take (2 - k))
              rw [List.take_take, Nat.min_eq_left (by omega)] at hrun
              rw [List.take_append, List.take_take, Nat.min_eq_right (by omega),
                List.length_take, Nat.min_eq_left (by omega), hrun]
          · have hk2 : 2 ≤ k := by
              have := (List.takeWhile_prefix Char.isDigit (l := more.take 2)).length_le
              rw [List.length_take] at this
              omega
            rw [List.take_append_of_le_length (by simp; omega), List.take_take,
              Nat.min_eq_left hk2]
        rwa [← hused]
      · rw [if_neg hdigit] at h ⊢
        by_cases hv : c = 'v'
        · rwa [if_pos hv] at h ⊢
        · rw [if_neg hv] at h ⊢
          by_cases hend : c = '\n' ∨ c = '\r'
          · simp [hend] at h
          · rw [if_neg hend] at h ⊢
            by_cases hx : c = 'x' ∨ c = 'X'
            · rw [if_pos hx] at h ⊢
              obtain ⟨-, hlength⟩ := Prod.mk.inj (Except.ok.inj h)
              rwa [takeWhile_take_append (by omega) (by omega)]
            · rwa [if_neg hx] at h ⊢

/-- A string body is closed, has no line end, and reads the same on any line, whatever
follows it. -/
theorem of_parseStringBody {line skip used : Nat} {s : List Char} {bytes : List Byte}
    (h : parseStringBody line skip s = .ok (bytes, used))
    (hskip : ∀ d ∈ s.take skip, Ordinary d) :
    skip < used ∧ used ≤ s.length ∧ Closed '"' (s.take used) ∧ '\n' ∉ s.take used ∧
      ∀ after line', parseStringBody line' skip (s.take used ++ after) = .ok (bytes, used) := by
  induction hn : s.length using Nat.strong_induction_on generalizing s skip bytes used with
  | _ n ih =>
      cases s with
      | nil => cases skip <;> simp [parseStringBody] at h
      | cons c s =>
          subst hn
          cases skip with
          | succ skip =>
              obtain ⟨⟨more, n⟩, hmore, hret⟩ := bind_eq_ok h
              obtain ⟨rfl, rfl⟩ := Prod.mk.inj (Except.ok.inj hret)
              rw [List.take_succ_cons] at hskip
              obtain ⟨hc, hrest⟩ := List.forall_mem_cons.1 hskip
              obtain ⟨hlt, hle, hclosed, hline, hafter⟩ := ih s.length (by simp) hmore hrest rfl
              rw [List.take_succ_cons]
              refine ⟨by omega, by simpa using hle, .char hc.1 hc.2.1 hclosed, ?_,
                fun after line' => ?_⟩
              · simp [Ne.symm hc.2.2, hline]
              · rw [List.cons_append, parseStringBody, hafter after line']
                rfl
          | zero =>
              rw [parseStringBody] at h
              by_cases hquote : c = '"'
              · subst hquote
                obtain ⟨rfl, rfl⟩ := Prod.mk.inj (Except.ok.inj h)
                exact ⟨by omega, by simp, .quote, by simp, fun after line' => rfl⟩
              · rw [if_neg hquote] at h
                by_cases hend : c = '\n' ∨ c = '\r'
                · simp [hend] at h
                · rw [if_neg hend] at h
                  have hc : c ≠ '\n' := fun heq => hend (Or.inl heq)
                  by_cases hescape : c = '\\'
                  · rw [if_pos hescape] at h
                    obtain ⟨⟨out, n⟩, hdecode, h⟩ := bind_eq_ok h
                    obtain ⟨⟨more, m⟩, hmore, hret⟩ := bind_eq_ok h
                    obtain ⟨rfl, rfl⟩ := Prod.mk.inj (Except.ok.inj hret)
                    obtain ⟨d, rest, rfl, hd, hpos, hordinary⟩ := of_decodeStringEscape hdecode
                    obtain ⟨n, rfl⟩ : ∃ j, n = j + 1 := ⟨n - 1, by omega⟩
                    obtain ⟨⟨tail, k⟩, htail, hret⟩ := bind_eq_ok hmore
                    obtain ⟨rfl, rfl⟩ := Prod.mk.inj (Except.ok.inj hret)
                    obtain ⟨hlt, hle, hclosed, hline, hafter⟩ :=
                      ih rest.length (by simp) htail hordinary rfl
                    rw [List.take_succ_cons, List.take_succ_cons, hescape]
                    refine ⟨by omega, by simpa using hle, .escape d hclosed, ?_,
                      fun after line' => ?_⟩
                    · simp [Ne.symm hd, hline]
                    · have hdecode' : decodeStringEscape (d :: (rest.take k ++ after)) line' =
                          .ok (out, n + 1) :=
                        decodeStringEscape_take (k := k + 1) hdecode (by omega)
                          (by simpa using hle) after line'
                      have hbody : parseStringBody line' (n + 1) (d :: (rest.take k ++ after)) =
                          .ok (tail, k + 1) := by
                        rw [parseStringBody, hafter after line']
                        rfl
                      rw [List.cons_append, List.cons_append, parseStringBody, if_neg (by decide),
                        if_neg (by decide), if_pos rfl, hdecode']
                      change (parseStringBody line' (n + 1) (d :: (rest.take k ++ after)) >>= _) = _
                      rw [hbody]
                      rfl
                  · rw [if_neg hescape] at h
                    obtain ⟨⟨more, n⟩, hmore, hret⟩ := bind_eq_ok h
                    obtain ⟨rfl, rfl⟩ := Prod.mk.inj (Except.ok.inj hret)
                    obtain ⟨hlt, hle, hclosed, hline, hafter⟩ :=
                      ih s.length (by simp) hmore (by simp) rfl
                    rw [List.take_succ_cons]
                    refine ⟨by omega, by simpa using hle, .char hquote hescape hclosed, ?_,
                      fun after line' => ?_⟩
                    · simp [Ne.symm hc, hline]
                    · rw [List.cons_append, parseStringBody, if_neg hquote, if_neg hend,
                        if_neg hescape, hafter after line']
                      rfl

theorem parseCharLiteral_escape {c : Char} {after : List Char} {line : Nat} {b : Byte}
    (hc : utf8 c = [b]) : parseCharLiteral ('\'' :: '\\' :: c :: '\'' :: after) line =
      .ok ((controlEscape c).head!.setWidth 32, 4) := by
  have hsize : ¬ utf8Size ('\'' :: '\\' :: c :: '\'' :: after) < 3 := by
    have hquote : Char.utf8Size '\'' = 1 := by decide
    have hbackslash : Char.utf8Size '\\' = 1 := by decide
    simp only [utf8Size, List.map_cons, List.sum_cons, hquote, hbackslash]
    omega
  unfold parseCharLiteral
  rw [if_neg hsize]
  simp only [hc]

theorem parseCharLiteral_plain {c : Char} {after : List Char} {line : Nat} {b : Byte}
    (hc : utf8 c = [b]) (hescape : c ≠ '\\') :
    parseCharLiteral ('\'' :: c :: '\'' :: after) line = .ok (b.setWidth 32, 3) := by
  have hsize : ¬ utf8Size ('\'' :: c :: '\'' :: after) < 3 := by
    have hquote : Char.utf8Size '\'' = 1 := by decide
    have hpos := Char.utf8Size_pos c
    simp only [utf8Size, List.map_cons, List.sum_cons, hquote]
    omega
  unfold parseCharLiteral
  rw [if_neg hsize]
  split
  · rename_i heq
    simp only [List.cons.injEq] at heq
    exact absurd heq.2.1 hescape
  · rename_i heq
    simp only [List.cons.injEq] at heq
    obtain ⟨-, rfl, rfl⟩ := heq
    simp only [hc]
  · rename_i hnone
    exact absurd rfl (hnone _ _ _)

/-- A character literal is a quote in quotes, or closed; it reads the same on any line,
whatever follows it. -/
theorem of_parseCharLiteral {s : List Char} {line used : Nat} {value : BitVec 32}
    (h : parseCharLiteral ('\'' :: s) line = .ok (value, used)) :
    ∃ t r, s = t ++ r ∧ used = t.length + 1 ∧ (t = ['\'', '\''] ∨ Closed '\'' t) ∧
      ∀ after line', parseCharLiteral ('\'' :: (t ++ after)) line' = .ok (value, used) := by
  unfold parseCharLiteral at h
  split at h
  · cases h
  split at h
  · rename_i q c rest heq
    obtain ⟨-, rfl⟩ := List.cons.inj heq
    split at h
    · rename_i b r hc _
      obtain ⟨rfl, rfl⟩ := Prod.mk.inj (Except.ok.inj h)
      exact ⟨['\\', c, '\''], r, rfl, rfl, Or.inr (.escape c .quote),
        fun after line' => parseCharLiteral_escape hc⟩
    · cases h
  · rename_i q c rest hescape heq
    obtain ⟨-, rfl⟩ := List.cons.inj heq
    split at h
    · rename_i b r hc _
      obtain ⟨rfl, rfl⟩ := Prod.mk.inj (Except.ok.inj h)
      have hne : c ≠ '\\' := fun hbackslash => hescape '\'' r hbackslash rfl
      refine ⟨[c, '\''], r, rfl, rfl, ?_, fun after line' => parseCharLiteral_plain hc hne⟩
      by_cases hquote : c = '\''
      · exact Or.inl (by rw [hquote])
      · exact Or.inr (.char hquote hne .quote)
    · cases h
  · cases h

end Lexer

end Playground
