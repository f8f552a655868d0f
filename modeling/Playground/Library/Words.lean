/-
The words of a list: its stretches free of blanks, where they stand in it, and what the words
joined by single blanks hold.
-/
import Mathlib

namespace Playground

namespace Words

variable {α : Type*} {blank : α → Bool}

/-- The pieces between blanks that are not empty. -/
def words (blank : α → Bool) (xs : List α) : List (List α) :=
  (xs.splitOnP blank).filter fun w => !w.isEmpty

def AllBlank (blank : α → Bool) (g : List α) : Prop := ∀ c ∈ g, blank c = true

def NoBlank (blank : α → Bool) (w : List α) : Prop := ∀ c ∈ w, blank c = false

/-- A text a word may stand before: it is empty or starts with a blank. -/
def Follows (blank : α → Bool) (r : List α) : Prop := ∀ c ∈ r.head?, blank c = true

@[simp]
theorem words_nil : words blank [] = [] := by simp [words]

theorem words_append_cons {c : α} (hc : blank c = true) (xs ys : List α) :
    words blank (xs ++ c :: ys) = words blank xs ++ words blank ys := by
  rw [words, List.splitOnP_append_cons xs ys hc, List.filter_append]
  rfl

theorem words_cons {c : α} (hc : blank c = true) (ys : List α) :
    words blank (c :: ys) = words blank ys := by
  have h := words_append_cons hc [] ys
  rwa [words_nil, List.nil_append, List.nil_append] at h

theorem words_of_noBlank {w : List α} (h : NoBlank blank w) (hw : w ≠ []) :
    words blank w = [w] := by
  rw [words, List.splitOnP_eq_singleton h]
  simp [hw]

theorem words_allBlank_append {g : List α} (hg : AllBlank blank g) (ys : List α) :
    words blank (g ++ ys) = words blank ys := by
  induction g with
  | nil => rfl
  | cons c g ih =>
      obtain ⟨hc, hg⟩ := List.forall_mem_cons.mp hg
      rw [List.cons_append, words_cons hc, ih hg]

theorem words_of_allBlank {g : List α} (hg : AllBlank blank g) : words blank g = [] := by
  have h := words_allBlank_append hg []
  rwa [List.append_nil, words_nil] at h

theorem words_append_allBlank {g : List α} (hg : AllBlank blank g) (xs : List α) :
    words blank (xs ++ g) = words blank xs := by
  cases g with
  | nil => rw [List.append_nil]
  | cons c g =>
      obtain ⟨hc, hg⟩ := List.forall_mem_cons.mp hg
      rw [words_append_cons hc, words_of_allBlank hg, List.append_nil]

/-- A word at the front, up to the first blank. -/
theorem words_word_append {w r : List α} (h : NoBlank blank w) (hw : w ≠ [])
    (hr : Follows blank r) : words blank (w ++ r) = w :: words blank r := by
  cases r with
  | nil => rw [List.append_nil, words_of_noBlank h hw, words_nil]
  | cons c r =>
      have hc : blank c = true := hr c rfl
      rw [words_append_cons hc, words_of_noBlank h hw, words_cons hc]
      rfl

/-- The text after a point goes on with the word it is in. -/
theorem exists_noBlank_prefix (blank : α → Bool) (xs : List α) :
    ∃ t r, xs = t ++ r ∧ NoBlank blank t ∧ Follows blank r := by
  induction xs with
  | nil => exact ⟨[], [], rfl, nofun, nofun⟩
  | cons c xs ih =>
      cases hc : blank c with
      | true =>
          refine ⟨[], c :: xs, rfl, nofun, ?_⟩
          rintro d ⟨⟩
          exact hc
      | false =>
          obtain ⟨t, r, rfl, ht, hr⟩ := ih
          exact ⟨c :: t, r, rfl, List.forall_mem_cons.mpr ⟨hc, ht⟩, hr⟩

/-- The text before a point ends with the word it is in, the words before it apart. -/
theorem exists_noBlank_suffix (blank : α → Bool) (xs : List α) :
    ∃ t, NoBlank blank t ∧ t <:+ xs ∧ ∀ w r, NoBlank blank w → w ≠ [] → Follows blank r →
      ∃ before, words blank (xs ++ (w ++ r)) = before ++ (t ++ w) :: words blank r := by
  induction xs using List.reverseRecOn with
  | nil =>
      refine ⟨[], nofun, List.nil_suffix, ?_⟩
      intro w r hw hne hr
      exact ⟨[], words_word_append hw hne hr⟩
  | append_singleton xs c ih =>
      cases hc : blank c with
      | true =>
          refine ⟨[], nofun, List.nil_suffix, ?_⟩
          intro w r hw hne hr
          refine ⟨words blank xs, ?_⟩
          rw [List.append_assoc, List.singleton_append, words_append_cons hc,
            words_word_append hw hne hr]
          rfl
      | false =>
          obtain ⟨t, ht, hsuffix, hwords⟩ := ih
          refine ⟨t ++ [c], ?_, ?_, ?_⟩
          · intro d hd
            rcases List.mem_append.mp hd with hd | hd
            · exact ht d hd
            · rwa [List.mem_singleton.mp hd]
          · obtain ⟨front, rfl⟩ := hsuffix
            exact ⟨front, (List.append_assoc _ _ _).symm⟩
          · intro w r hw hne hr
            obtain ⟨before, h⟩ := hwords (c :: w) r (List.forall_mem_cons.mpr ⟨hc, hw⟩)
              (List.cons_ne_nil c w) hr
            refine ⟨before, ?_⟩
            rw [List.append_assoc, List.singleton_append, List.append_assoc,
              List.singleton_append]
            exact h

/-- Where the first word stands. -/
theorem exists_of_words_cons {xs w : List α} {ws : List (List α)} (h : words blank xs = w :: ws) :
    ∃ g r, xs = g ++ (w ++ r) ∧ AllBlank blank g ∧ NoBlank blank w ∧ w ≠ [] ∧
      Follows blank r ∧ words blank r = ws := by
  induction xs with
  | nil => simp at h
  | cons c xs ih =>
      cases hc : blank c with
      | true =>
          rw [words_cons hc] at h
          obtain ⟨g, r, rfl, hg, hrest⟩ := ih h
          exact ⟨c :: g, r, rfl, List.forall_mem_cons.mpr ⟨hc, hg⟩, hrest⟩
      | false =>
          obtain ⟨t, r, rfl, ht, hr⟩ := exists_noBlank_prefix blank xs
          have hword : NoBlank blank (c :: t) := List.forall_mem_cons.mpr ⟨hc, ht⟩
          have hwords := words_word_append hword (List.cons_ne_nil c t) hr
          rw [List.cons_append] at hwords
          rw [hwords] at h
          obtain ⟨rfl, rfl⟩ := List.cons.inj h
          exact ⟨[], r, rfl, nofun, hword, List.cons_ne_nil c t, hr, rfl⟩

theorem of_mem_words {xs w : List α} (h : w ∈ words blank xs) :
    NoBlank blank w ∧ w ≠ [] ∧ w <:+: xs := by
  induction hws : words blank xs generalizing xs with
  | nil =>
      rw [hws] at h
      cases h
  | cons v vs ih =>
      obtain ⟨g, r, rfl, -, hv, hne, -, hr⟩ := exists_of_words_cons hws
      rw [hws] at h
      rcases List.mem_cons.mp h with rfl | hmem
      · exact ⟨hv, hne, g, r, List.append_assoc _ _ _⟩
      · obtain ⟨hw, hwne, hpart⟩ := ih (hr.symm ▸ hmem) hr
        refine ⟨hw, hwne, hpart.trans ⟨g ++ v, [], ?_⟩⟩
        simp

/-- A pattern without blanks is in a text if it is in one of its words. -/
theorem infix_iff_words {pat xs : List α} (hpat : NoBlank blank pat) (hne : pat ≠ []) :
    pat <:+: xs ↔ ∃ w ∈ words blank xs, pat <:+: w := by
  constructor
  · rintro ⟨p, r, rfl⟩
    obtain ⟨t, -, -, hwords⟩ := exists_noBlank_suffix blank p
    obtain ⟨u, r', rfl, hu, hr'⟩ := exists_noBlank_prefix blank r
    have hlong : NoBlank blank (pat ++ u) := by
      intro c hc
      exact (List.mem_append.mp hc).elim (hpat c) (hu c)
    obtain ⟨before, h⟩ := hwords (pat ++ u) r' hlong (by simp [hne]) hr'
    refine ⟨t ++ (pat ++ u), ?_, t, u, List.append_assoc _ _ _⟩
    simp only [List.append_assoc] at h ⊢
    rw [h]
    exact List.mem_append_right before List.mem_cons_self
  · rintro ⟨w, hw, hpart⟩
    exact hpart.trans (of_mem_words hw).2.2

/-- Two patterns with blanks between stand in neighbouring words. -/
theorem gap_iff_words {a b xs : List α} (ha : NoBlank blank a) (hb : NoBlank blank b)
    (hane : a ≠ []) (hbne : b ≠ []) :
    (∃ g, g ≠ [] ∧ AllBlank blank g ∧ a ++ (g ++ b) <:+: xs) ↔
      ∃ w v, [w, v] <:+: words blank xs ∧ a <:+ w ∧ b <+: v := by
  constructor
  · rintro ⟨g, hgne, hg, p, r, rfl⟩
    obtain ⟨t, -, -, hwords⟩ := exists_noBlank_suffix blank p
    obtain ⟨u, r', rfl, hu, hr'⟩ := exists_noBlank_prefix blank r
    have hlong : NoBlank blank (b ++ u) := by
      intro c hc
      exact (List.mem_append.mp hc).elim (hb c) (hu c)
    have hfollows : Follows blank (g ++ (b ++ (u ++ r'))) := by
      cases g with
      | nil => exact absurd rfl hgne
      | cons c g =>
          rintro d ⟨⟩
          exact hg c List.mem_cons_self
    obtain ⟨before, h⟩ := hwords a _ ha hane hfollows
    refine ⟨t ++ a, b ++ u, ⟨before, words blank r', ?_⟩, List.suffix_append t a,
      List.prefix_append b u⟩
    have hrest : words blank (g ++ (b ++ (u ++ r'))) = (b ++ u) :: words blank r' := by
      rw [words_allBlank_append hg, ← List.append_assoc b u r',
        words_word_append hlong (by simp [hbne]) hr']
    rw [hrest] at h
    simp only [List.append_assoc, List.cons_append, List.nil_append] at h ⊢
    exact h.symm
  · rintro ⟨w, v, ⟨before, after, hwords⟩, ⟨t, rfl⟩, u, rfl⟩
    induction before generalizing xs with
    | nil =>
        obtain ⟨g₀, r, rfl, -, hw, hwne, hr, hrest⟩ := exists_of_words_cons hwords.symm
        obtain ⟨g, r', rfl, hg, -, hvne, -, -⟩ := exists_of_words_cons hrest
        refine ⟨g, ?_, hg, g₀ ++ t, u ++ r', by simp⟩
        rintro rfl
        obtain ⟨c, b, rfl⟩ := List.exists_cons_of_ne_nil hbne
        have hc := hr c rfl
        rw [hb c List.mem_cons_self] at hc
        cases hc
    | cons head before ih =>
        obtain ⟨g₀, r, rfl, -, -, -, -, hrest⟩ := exists_of_words_cons hwords.symm
        obtain ⟨g, hgne, hg, hpart⟩ := ih hrest.symm
        exact ⟨g, hgne, hg, hpart.trans ⟨g₀ ++ head, [], by simp⟩⟩

theorem words_intercalate_blank {c : α} (hc : blank c = true) (xss : List (List α)) :
    words blank ([c].intercalate xss) = xss.flatMap (words blank) := by
  induction xss with
  | nil => simp
  | cons xs xss ih =>
      cases xss with
      | nil => simp
      | cons ys xss =>
          rw [List.intercalate_cons_cons, List.append_assoc, List.singleton_append,
            words_append_cons hc, ih]
          rfl

/-- Words joined by a blank are the words of what they make. -/
theorem words_intercalate {c : α} (hc : blank c = true) {ws : List (List α)}
    (hws : ∀ w ∈ ws, NoBlank blank w ∧ w ≠ []) : words blank ([c].intercalate ws) = ws := by
  rw [words_intercalate_blank hc]
  induction ws with
  | nil => rfl
  | cons w ws ih =>
      obtain ⟨⟨hw, hne⟩, hws⟩ := List.forall_mem_cons.mp hws
      rw [List.flatMap_cons, words_of_noBlank hw hne, ih hws]
      rfl

theorem infix_intercalate_pair (c : α) {ws : List (List α)} {w v : List α}
    (h : [w, v] <:+: ws) : w ++ c :: v <:+: [c].intercalate ws := by
  obtain ⟨before, after, rfl⟩ := h
  induction before with
  | nil =>
      cases after with
      | nil => exact ⟨[], [], by simp⟩
      | cons x after => exact ⟨[], c :: [c].intercalate (x :: after), by simp⟩
  | cons head before ih =>
      have hne : before ++ [w, v] ++ after ≠ [] := by simp
      obtain ⟨x, rest, hrest⟩ := List.exists_cons_of_ne_nil hne
      rw [List.cons_append, List.cons_append, hrest, List.intercalate_cons_cons]
      rw [hrest] at ih
      exact ih.trans (List.suffix_append (head ++ [c]) _).isInfix

/-- Two patterns a single blank apart in the joined words stand in neighbouring words. -/
theorem single_gap_iff_words {c : α} (hc : blank c = true) {a b xs : List α}
    (ha : NoBlank blank a) (hb : NoBlank blank b) (hane : a ≠ []) (hbne : b ≠ []) :
    a ++ c :: b <:+: [c].intercalate (words blank xs) ↔
      ∃ w v, [w, v] <:+: words blank xs ∧ a <:+ w ∧ b <+: v := by
  have hwords : words blank ([c].intercalate (words blank xs)) = words blank xs :=
    words_intercalate hc fun w hw => ⟨(of_mem_words hw).1, (of_mem_words hw).2.1⟩
  constructor
  · intro h
    rw [← hwords]
    refine (gap_iff_words ha hb hane hbne).mp ⟨[c], by simp, ?_, h⟩
    intro d hd
    rwa [List.mem_singleton.mp hd]
  · rintro ⟨w, v, hpair, ⟨t, rfl⟩, u, rfl⟩
    have hpart : a ++ c :: b <:+: (t ++ a) ++ c :: (b ++ u) := ⟨t, u, by simp⟩
    exact hpart.trans (infix_intercalate_pair c hpair)

theorem pair_infix_append {γ : Type*} {l r : List γ} {a b : γ} :
    [a, b] <:+: l ++ r ↔
      [a, b] <:+: l ∨ [a, b] <:+: r ∨ l.getLast? = some a ∧ r.head? = some b := by
  induction l with
  | nil => simp
  | cons c l ih =>
      rw [List.cons_append, List.infix_cons_iff, ih, List.infix_cons_iff]
      cases l with
      | nil =>
          cases r with
          | nil => simp
          | cons d r =>
              simp
              tauto
      | cons d l => simp [or_assoc]

/-- The first of joined lists is the first of the first that is not empty. -/
theorem exists_of_head_flatMap {β γ : Type*} {f : β → List γ} {xs : List β} {b : γ}
    (h : (xs.flatMap f).head? = some b) : ∃ between y after, xs = between ++ y :: after ∧
      (∀ z ∈ between, f z = []) ∧ (f y).head? = some b := by
  induction xs with
  | nil => cases h
  | cons x xs ih =>
      rw [List.flatMap_cons] at h
      cases hx : f x with
      | nil =>
          rw [hx, List.nil_append] at h
          obtain ⟨between, y, after, rfl, hbetween, hy⟩ := ih h
          exact ⟨x :: between, y, after, rfl, List.forall_mem_cons.mpr ⟨hx, hbetween⟩, hy⟩
      | cons c l =>
          rw [hx] at h
          exact ⟨[], x, xs, rfl, nofun, by rw [hx]; exact h⟩

/-- Neighbours in joined lists are neighbours in one of them, or the last of one and the
first of the next that is not empty. -/
theorem pair_infix_flatMap {β γ : Type*} {f : β → List γ} {xs : List β} {a b : γ} :
    [a, b] <:+: xs.flatMap f ↔ (∃ x ∈ xs, [a, b] <:+: f x) ∨
      ∃ before x between y after, xs = before ++ x :: (between ++ y :: after) ∧
        (f x).getLast? = some a ∧ (∀ z ∈ between, f z = []) ∧ (f y).head? = some b := by
  induction xs with
  | nil => simp
  | cons x xs ih =>
      rw [List.flatMap_cons, pair_infix_append, ih]
      constructor
      · rintro (h | (⟨y, hy, h⟩ | ⟨before, y, between, z, after, rfl, h⟩) | ⟨hlast, hhead⟩)
        · exact Or.inl ⟨x, List.mem_cons_self, h⟩
        · exact Or.inl ⟨y, List.mem_cons_of_mem x hy, h⟩
        · exact Or.inr ⟨x :: before, y, between, z, after, rfl, h⟩
        · obtain ⟨between, y, after, rfl, hbetween, hy⟩ := exists_of_head_flatMap hhead
          exact Or.inr ⟨[], x, between, y, after, rfl, hlast, hbetween, hy⟩
      · rintro (⟨y, hy, h⟩ | ⟨before, y, between, z, after, hxs, hlast, hbetween, hz⟩)
        · rcases List.mem_cons.mp hy with rfl | hy
          · exact Or.inl h
          · exact Or.inr (Or.inl (Or.inl ⟨y, hy, h⟩))
        · cases before with
          | nil =>
              obtain ⟨rfl, rfl⟩ := List.cons.inj hxs
              refine Or.inr (Or.inr ⟨hlast, ?_⟩)
              rw [List.flatMap_append, List.flatMap_eq_nil_iff.mpr hbetween, List.nil_append,
                List.flatMap_cons, List.head?_append, hz]
              rfl
          | cons head before =>
              obtain ⟨rfl, rfl⟩ := List.cons.inj hxs
              exact Or.inr (Or.inl (Or.inr
                ⟨before, y, between, z, after, rfl, hlast, hbetween, hz⟩))

end Words

end Playground
