/-
Words that repeat an element of which a rotated run of bits is set.
-/
import Mathlib.Data.Nat.Periodic
import Mathlib.Tactic

namespace BitRuns

variable {w : Nat}

/-- Bit `i` of the word that repeats `e` bits of which the low `c`, rotated right by `r`, are
set. -/
def run (e c r i : Nat) : Bool := decide ((i + r) % e < c)

theorem run_mod (e c r i : Nat) : run e c r (i % e) = run e c r i := by
  simp [run]

/-- A rotation sees the run through its own shift. -/
theorem run_add (e c r i k : Nat) : run e c r ((i + k) % e) = run e c (k + r) i := by
  simp [run, Nat.add_assoc]

/-- A full turn is no rotation. -/
theorem run_full (e c : Nat) {k r : Nat} (h : (k + r) % e = 0) (i : Nat) :
    run e c (k + r) i = decide (i % e < c) := by
  unfold run
  rw [Nat.add_mod, h, Nat.add_zero, Nat.mod_mod]

theorem exists_full {e r : Nat} (hr : r < e) : ∃ k < e, (k + r) % e = 0 := by
  refine ⟨(e - r) % e, Nat.mod_lt _ (by omega), ?_⟩
  rw [Nat.mod_add_mod, Nat.sub_add_cancel (Nat.le_of_lt hr), Nat.mod_self]

/-- As many bits of an element are set as the run is long. -/
theorem count_run {e c : Nat} (hc : c ≤ e) (r : Nat) :
    Nat.count (fun i => run e c r i = true) e = c := by
  have hperiodic : Function.Periodic (fun i => run e c r i = true) e := by
    intro i
    simp [run, Nat.add_right_comm i e r]
  have hshift : Function.Periodic (fun i => run e c 0 i = true) e := by
    intro i
    simp [run]
  have hcard : (Finset.filter (fun i => run e c r i = true) (Finset.Ico 0 (0 + e))).card =
      (Finset.filter (fun i => run e c 0 i = true) (Finset.Ico r (r + e))).card := by
    apply Finset.card_bij (fun i _ => i + r)
    · intro i hi
      simp only [Finset.mem_filter, Finset.mem_Ico] at hi ⊢
      exact ⟨by omega, hi.2⟩
    · intro i _ j _ heq
      exact Nat.add_right_cancel heq
    · intro j hj
      simp only [Finset.mem_filter, Finset.mem_Ico] at hj
      refine ⟨j - r, ?_, Nat.sub_add_cancel hj.1.1⟩
      simp only [Finset.mem_filter, Finset.mem_Ico]
      refine ⟨by omega, ?_⟩
      have hback : j - r + r = j := Nat.sub_add_cancel hj.1.1
      unfold run at hj ⊢
      rw [hback]
      exact hj.2
  have hlow : Nat.count (fun i => run e c 0 i = true) e = c := by
    rw [Nat.count_eq_card_filter_range]
    have hset : Finset.filter (fun i => run e c 0 i = true) (Finset.range e) = Finset.range c := by
      ext i
      simp only [Finset.mem_filter, Finset.mem_range, run, Nat.add_zero, decide_eq_true_eq]
      constructor
      · rintro ⟨hi, hlt⟩
        rwa [Nat.mod_eq_of_lt hi] at hlt
      · intro hi
        refine ⟨by omega, ?_⟩
        rwa [Nat.mod_eq_of_lt (by omega)]
    rw [hset, Finset.card_range]
  calc Nat.count (fun i => run e c r i = true) e
      = _ := (Nat.filter_Ico_card_eq_of_periodic 0 e _ hperiodic).symm
    _ = _ := hcard
    _ = _ := Nat.filter_Ico_card_eq_of_periodic r e _ hshift
    _ = c := hlow

theorem cpopNatRec_eq_count (x : BitVec w) (n : Nat) :
    x.cpopNatRec n 0 = Nat.count (fun i => x.getLsbD i = true) n := by
  induction n with
  | zero => rfl
  | succ n ih =>
      rw [BitVec.cpopNatRec_succ, BitVec.cpopNatRec_add, ih, Nat.count_succ]
      cases x.getLsbD n <;> rfl

theorem toNat_cpop_eq_count (x : BitVec w) :
    x.cpop.toNat = Nat.count (fun i => x.getLsbD i = true) w := by
  rw [BitVec.toNat_cpop, cpopNatRec_eq_count]

/-- Nothing is set above the element. -/
theorem count_eq_of_above {p : Nat → Prop} [DecidablePred p] {e n : Nat} (he : e ≤ n)
    (habove : ∀ i, e ≤ i → ¬ p i) : Nat.count p n = Nat.count p e := by
  induction n, he using Nat.le_induction with
  | base => rfl
  | succ n hn ih => rw [Nat.count_succ, if_neg (habove n hn), ih, Nat.add_zero]

/-- The word with its low `k` bits set. -/
theorem getLsbD_ones {k : Nat} (hw : 0 < w) (hk : k ≤ w) (i : Nat) :
    (((1 <<< k : Nat) : BitVec w) - 1).getLsbD i = decide (i < k) := by
  have hpos := Nat.two_pow_pos k
  have hone : 1 < 2 ^ w := Nat.one_lt_two_pow (by omega)
  have hvalue : ((1 <<< k : Nat) : BitVec w) - 1 = BitVec.ofNat w (2 ^ k - 1) := by
    rw [Nat.one_shiftLeft]
    exact BitVec.ofNat_sub_ofNat_of_le (2 ^ k) 1 hone hpos
  rw [hvalue, BitVec.getLsbD_ofNat, Nat.testBit_two_pow_sub_one]
  by_cases hi : i < k
  · simp [hi, show i < w by omega]
  · simp [hi]

end BitRuns
