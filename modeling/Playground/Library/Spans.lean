/-
Ranges of addresses.  Ranges that follow each other in a window are pairwise disjoint,
and so are ranges of windows that do not meet.
-/
import Mathlib

namespace Spans

/-- A range: where it starts and how long it is. -/
abbrev Span := Nat × Nat

/-- No address lies in both. -/
def Apart (a b : Span) : Prop := a.1 + a.2 ≤ b.1 ∨ b.1 + b.2 ≤ a.1

/-- A range inside the window from `lo` to `hi`. -/
def Inside (lo hi : Nat) (a : Span) : Prop := lo ≤ a.1 ∧ a.1 + a.2 ≤ hi

/-- Ranges that follow each other between `lo` and `hi`. -/
def Chained : Nat → Nat → List Span → Prop
  | lo, hi, [] => lo ≤ hi
  | lo, hi, a :: spans => lo ≤ a.1 ∧ Chained (a.1 + a.2) hi spans

theorem Chained.le {lo hi : Nat} {spans : List Span} (h : Chained lo hi spans) : lo ≤ hi := by
  induction spans generalizing lo with
  | nil => exact h
  | cons a spans ih =>
      have hrest := ih h.2
      have hstart := h.1
      omega

theorem Chained.append {lo mid hi : Nat} {spans spans' : List Span}
    (h : Chained lo mid spans) (h' : Chained mid hi spans') : Chained lo hi (spans ++ spans') := by
  induction spans generalizing lo with
  | nil =>
      cases spans' with
      | nil => exact Nat.le_trans h h'
      | cons b spans' => exact ⟨Nat.le_trans h h'.1, h'.2⟩
  | cons a spans ih => exact ⟨h.1, ih h.2⟩

theorem Chained.inside {lo hi : Nat} {spans : List Span} (h : Chained lo hi spans) :
    ∀ a ∈ spans, Inside lo hi a := by
  induction spans generalizing lo with
  | nil => simp
  | cons a spans ih =>
      have hend := h.2.le
      intro b hb
      rcases List.mem_cons.mp hb with rfl | hb
      · exact ⟨h.1, hend⟩
      · have hrest := ih h.2 b hb
        exact ⟨Nat.le_trans (Nat.le_trans h.1 (Nat.le_add_right _ _)) hrest.1, hrest.2⟩

theorem Chained.pairwise {lo hi : Nat} {spans : List Span} (h : Chained lo hi spans) :
    spans.Pairwise Apart := by
  induction spans generalizing lo with
  | nil => exact List.Pairwise.nil
  | cons a spans ih =>
      refine List.Pairwise.cons ?_ (ih h.2)
      intro b hb
      exact Or.inl (h.2.inside b hb).1

/-- Ranges with something in them start later and later. -/
theorem Chained.pairwise_lt {lo hi : Nat} {spans : List Span} (h : Chained lo hi spans)
    (hpos : ∀ a ∈ spans, 0 < a.2) : spans.Pairwise fun a b => a.1 < b.1 := by
  induction spans generalizing lo with
  | nil => exact List.Pairwise.nil
  | cons a spans ih =>
      refine List.Pairwise.cons ?_ (ih h.2 fun b hb => hpos b (List.mem_cons_of_mem a hb))
      intro b hb
      have hafter := (h.2.inside b hb).1
      have hlen := hpos a List.mem_cons_self
      omega

theorem Inside.mono {lo lo' hi hi' : Nat} {a : Span} (h : Inside lo hi a) (hlo : lo' ≤ lo)
    (hhi : hi ≤ hi') : Inside lo' hi' a :=
  ⟨Nat.le_trans hlo h.1, Nat.le_trans h.2 hhi⟩

/-- Ranges of two windows that do not meet. -/
theorem Inside.apart {lo hi lo' hi' : Nat} {a b : Span} (ha : Inside lo hi a)
    (hb : Inside lo' hi' b) (h : hi ≤ lo' ∨ hi' ≤ lo) : Apart a b := by
  rcases h with h | h
  · exact Or.inl (Nat.le_trans ha.2 (Nat.le_trans h hb.1))
  · exact Or.inr (Nat.le_trans hb.2 (Nat.le_trans h ha.1))

end Spans
