/-
Spans that tile a range: each starts where the last one stopped, the first at the low end and
the last up to the high end.
-/
import Mathlib

namespace Playground

namespace Tiling

variable {α : Type*} (addr size : α → Int)

/-- The spans follow one another from `lo` to `hi`, none of them empty. -/
def Tiles (lo hi : Int) : List α → Prop
  | [] => lo = hi
  | x :: xs => addr x = lo ∧ 0 < size x ∧ Tiles (lo + size x) hi xs

/-- The span holds the address. -/
def Holds (a : Int) (x : α) : Prop := addr x ≤ a ∧ a < addr x + size x

variable {addr size} {lo mid hi : Int} {xs ys : List α}

theorem tiles_singleton {x : α} (hlo : addr x = lo) (hhi : addr x + size x = hi)
    (hpos : 0 < size x) : Tiles addr size lo hi [x] :=
  ⟨hlo, hpos, by rw [Tiles]; omega⟩

theorem Tiles.append (h : Tiles addr size lo mid xs) (h' : Tiles addr size mid hi ys) :
    Tiles addr size lo hi (xs ++ ys) := by
  induction xs generalizing lo with
  | nil =>
      have heq : lo = mid := h
      rwa [List.nil_append, heq]
  | cons x xs ih =>
      obtain ⟨hlo, hpos, hrest⟩ := h
      exact ⟨hlo, hpos, ih hrest⟩

theorem Tiles.le (h : Tiles addr size lo hi xs) : lo ≤ hi := by
  induction xs generalizing lo with
  | nil => exact le_of_eq h
  | cons x xs ih =>
      obtain ⟨-, hpos, hrest⟩ := h
      have hle := ih hrest
      omega

theorem Tiles.mem (h : Tiles addr size lo hi xs) {x : α} (hx : x ∈ xs) :
    lo ≤ addr x ∧ 0 < size x ∧ addr x + size x ≤ hi := by
  induction xs generalizing lo with
  | nil => exact absurd hx List.not_mem_nil
  | cons y xs ih =>
      obtain ⟨hlo, hpos, hrest⟩ := h
      rw [List.mem_cons] at hx
      rcases hx with rfl | hx
      · have hle := hrest.le
        omega
      · obtain ⟨hlow, hsize, hhigh⟩ := ih hrest hx
        exact ⟨by omega, hsize, hhigh⟩

/-- Each span is past the ones before it. -/
theorem Tiles.ascending (h : Tiles addr size lo hi xs) :
    xs.Pairwise fun x y => addr x + size x ≤ addr y := by
  induction xs generalizing lo with
  | nil => exact List.Pairwise.nil
  | cons x xs ih =>
      obtain ⟨hlo, hpos, hrest⟩ := h
      rw [List.pairwise_cons]
      refine ⟨fun y hy => ?_, ih hrest⟩
      have hmem := hrest.mem hy
      omega

/-- Together they hold just the addresses of the range. -/
theorem Tiles.holds_iff (h : Tiles addr size lo hi xs) (a : Int) :
    (∃ x ∈ xs, Holds addr size a x) ↔ lo ≤ a ∧ a < hi := by
  induction xs generalizing lo with
  | nil =>
      have heq : lo = hi := h
      constructor
      · rintro ⟨x, hx, -⟩
        exact absurd hx List.not_mem_nil
      · intro hrange
        omega
  | cons x xs ih =>
      obtain ⟨hlo, hpos, hrest⟩ := h
      have hle := hrest.le
      have hiff := ih hrest
      rw [List.exists_mem_cons_iff, hiff, Holds]
      omega

end Tiling

end Playground
