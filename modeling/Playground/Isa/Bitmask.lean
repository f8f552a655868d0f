/-
The bitmask immediates in both directions: the values a triple of fields stands for are the
ones that repeat a rotated run of bits, and encoding finds every one of them.
-/
import Playground.Isa.Decode
import Playground.Library.BitRuns

namespace Playground

namespace Decode

open BitRuns

open Fields (bits) in
/-- The data-processing immediates have bit 28 set and bits 27 and 26 clear. -/
theorem decode_dpImmGroup {V : Type} (vec : VectorDecoder V) {w : BitVec 32}
    (h : bits w 28 26 = 4) : decode vec w = decodeDpImmGroup w := by
  have hbit : w.getLsbD 26 = false := by
    simp only [bits] at h
    rw [BitVec.getLsbD, Nat.testBit_eq_decide_div_mod_eq]
    simp only [decide_eq_false_iff_not]
    omega
  have hnop : w ≠ 0xD503201F := by
    rintro rfl
    simp at hbit
  have hmask : ∀ mask c : BitVec 32, c.getLsbD 26 = true → w &&& mask ≠ c := by
    rintro mask c hc rfl
    rw [BitVec.getLsbD_and, hbit] at hc
    exact absurd hc (by simp)
  have hclass : bits w 28 25 = 8 ∨ bits w 28 25 = 9 := by
    simp only [bits] at h ⊢
    omega
  unfold decode
  rw [if_neg hnop, if_neg (hmask _ _ (by decide)), if_neg (hmask _ _ (by decide))]
  rcases hclass with h | h <;> rw [h] <;> rfl

section Bits

variable {x : Word} {e r i : Nat}

theorem getLsbD_elementMask (he : e ≤ 64) (i : Nat) :
    (elementMask e).getLsbD i = decide (i < e) := by
  unfold elementMask
  split
  · rename_i h
    rw [BitVec.getLsbD_allOnes, h]
  · exact getLsbD_ones (by decide) he i

theorem getLsbD_rotateElement (he : e ≤ 64) (hr : r < e)
    (habove : ∀ j, e ≤ j → x.getLsbD j = false) (hi : i < 64) :
    (rotateElement x e r (elementMask e)).getLsbD i =
      (decide (i < e) && x.getLsbD ((i + r) % e)) := by
  unfold rotateElement
  split
  · rename_i hzero
    rw [hzero, Nat.add_zero]
    by_cases hie : i < e
    · rw [Nat.mod_eq_of_lt hie]
      simp [hie]
    · rw [habove i (by omega)]
      simp [hie]
  · rw [BitVec.getLsbD_and, BitVec.getLsbD_or, getLsbD_elementMask he,
      BitVec.getLsbD_ushiftRight, BitVec.getLsbD_shiftLeft, Bool.and_comm]
    by_cases hie : i < e
    · congr 1
      by_cases hwrap : i + r < e
      · have hlow : i < e - r := by omega
        rw [Nat.mod_eq_of_lt hwrap, Nat.add_comm r i]
        simp [hlow]
      · have hmod : (i + r) % e = i - (e - r) := by
          rw [Nat.mod_eq_sub_mod (by omega), Nat.mod_eq_of_lt (by omega)]
          omega
        rw [habove (r + i) (by omega), hmod]
        simp [hi, show ¬ i < e - r by omega]
    · simp [hie]

/-- Doubling copies the element across the word. -/
theorem getLsbD_replicate {p : Nat → Bool} (width fuel : Nat) {result : Word} (hdvd : e ∣ width)
    (hresult : ∀ i < 64, result.getLsbD i = (decide (i < width) && p (i % e)))
    (hfuel : 64 ≤ width * 2 ^ fuel) (hi : i < 64) :
    (replicate result width fuel).getLsbD i = p (i % e) := by
  induction fuel generalizing result width with
  | zero =>
      rw [replicate, hresult i hi, decide_eq_true (by omega), Bool.true_and]
  | succ fuel ih =>
      rw [replicate]
      split
      · apply ih (width * 2) (Dvd.dvd.mul_right hdvd 2)
        · intro j hj
          rw [BitVec.getLsbD_or, BitVec.getLsbD_shiftLeft, hresult j hj]
          by_cases hlow : j < width
          · simp [hlow, show j < width * 2 by omega]
          · have hmod : (j - width) % e = j % e := by
              conv_rhs => rw [← Nat.sub_add_cancel (Nat.not_lt.mp hlow)]
              rw [Nat.add_mod, Nat.mod_eq_zero_of_dvd hdvd, Nat.add_zero, Nat.mod_mod]
            rw [hresult (j - width) (by omega), hmod]
            by_cases htwo : j < width * 2
            · simp [hlow, hj, htwo, show j - width < width by omega]
            · simp [hlow, hj, htwo, show ¬ j - width < width by omega]
        · rw [Nat.mul_assoc, ← Nat.pow_succ']
          exact hfuel
      · rw [hresult i hi, decide_eq_true (by omega), Bool.true_and]

/-- A word repeats its element when each bit is the element's. -/
theorem repeats_iff (he : e ∣ 64) (hpos : 0 < e) (hle : e ≤ 64) (value : Word) :
    repeats value e (elementMask e) (value &&& elementMask e) = true ↔
      ∀ i < 64, value.getLsbD i = value.getLsbD (i % e) := by
  unfold repeats
  simp only [List.all_eq_true, List.mem_range, beq_iff_eq]
  constructor
  · intro h i hi
    have hblock := h (i / e) (Nat.div_lt_div_of_lt_of_dvd he hi)
    have hmod := Nat.mod_lt i hpos
    have hbit := congrArg (BitVec.getLsbD · (i % e)) hblock
    simp only [BitVec.getLsbD_and, BitVec.getLsbD_ushiftRight] at hbit
    rw [getLsbD_elementMask hle, decide_eq_true hmod, Bool.and_true, Bool.and_true,
      Nat.mul_comm, Nat.div_add_mod] at hbit
    exact hbit
  · intro h k hk
    apply BitVec.eq_of_getLsbD_eq
    intro j hj
    have hblock : k * e + e ≤ 64 := by
      obtain ⟨n, hn⟩ := he
      rw [hn, Nat.mul_div_cancel_left n hpos] at hk
      calc k * e + e = e * (k + 1) := by ring
        _ ≤ e * n := Nat.mul_le_mul_left e hk
        _ = 64 := hn.symm
    rw [BitVec.getLsbD_and, BitVec.getLsbD_and, BitVec.getLsbD_ushiftRight,
      getLsbD_elementMask hle]
    by_cases hje : j < e
    · rw [h (k * e + j) (by omega), Nat.mul_add_mod', Nat.mod_eq_of_lt hje]
    · simp [hje]

end Bits

/-- A value at a width that repeats a run of `c` ones, rotated right by `r`, in elements of
`2 ^ len` bits. -/
structure IsRun (sf : Bool) (value : Word) (len c r : Nat) : Prop where
  len_pos : 1 ≤ len
  len_le : len ≤ if sf then 6 else 5
  ones_pos : 0 < c
  ones_lt : c < 2 ^ len
  turn_lt : r < 2 ^ len
  bits : ∀ i < 64, value.getLsbD i = ((sf || decide (i < 32)) && run (2 ^ len) c r i)

section Elements

variable {sf : Bool} {value value' : Word} {len c r : Nat}

theorem IsRun.len_le_six (h : IsRun sf value len c r) : len ≤ 6 := by
  have hle := h.len_le
  split at hle <;> omega

theorem IsRun.element_le (h : IsRun sf value len c r) : 2 ^ len ≤ if sf then 64 else 32 := by
  have hle := h.len_le
  cases sf with
  | true => exact Nat.pow_le_pow_right (by decide) hle
  | false => exact Nat.pow_le_pow_right (by decide) hle

/-- From where the run starts, its ones come first. -/
theorem IsRun.exists_bits (h : IsRun sf value len c r) :
    ∃ k, ∀ i < 2 ^ len, value.getLsbD ((i + k) % 2 ^ len) = decide (i < c) := by
  obtain ⟨k, -, hfull⟩ := exists_full h.turn_lt
  refine ⟨k, ?_⟩
  intro i hi
  have hle := h.element_le
  have hlow := Nat.mod_lt (i + k) (Nat.two_pow_pos len)
  have hbit := h.bits ((i + k) % 2 ^ len) (by split at hle <;> omega)
  rw [run_add, run_full _ _ hfull, Nat.mod_eq_of_lt hi] at hbit
  rw [hbit]
  cases sf with
  | true => rfl
  | false =>
      rw [if_neg (by decide)] at hle
      rw [decide_eq_true (show (i + k) % 2 ^ len < 32 by omega)]
      rfl

theorem element_dvd (hlen : len ≤ 6) : 2 ^ len ∣ 64 := pow_dvd_pow 2 hlen

theorem element_le (hlen : len ≤ 6) : 2 ^ len ≤ 64 := Nat.le_of_dvd (by decide) (element_dvd hlen)

/-- The bits of a rotated run that fills the word. -/
theorem getLsbD_replicate_run (hlen : len ≤ 6) (hc : c < 2 ^ len) (hr : r < 2 ^ len) {i : Nat}
    (hi : i < 64) :
    (replicate (rotateElement (((1 <<< c : Nat) : Word) - 1) (2 ^ len) r
      (elementMask (2 ^ len))) (2 ^ len) 6).getLsbD i = run (2 ^ len) c r i := by
  have hle := element_le hlen
  have hpos := Nat.two_pow_pos len
  rw [← run_mod]
  apply getLsbD_replicate _ _ (dvd_refl _) _ (by omega) hi
  intro j hj
  rw [getLsbD_rotateElement hle hr _ hj]
  · congr 1
    rw [getLsbD_ones (by decide) (by omega), run_mod]
    rfl
  · intro k hk
    rw [getLsbD_ones (by decide) (by omega), decide_eq_false (by omega)]

/-- A word that is cut to 32 bits keeps the lower ones. -/
theorem getLsbD_cut (sf : Bool) (value : Word) (i : Nat) :
    (if sf then value else value &&& 0xFFFFFFFF).getLsbD i =
      ((sf || decide (i < 32)) && value.getLsbD i) := by
  cases sf with
  | true => simp
  | false =>
      have hmask : (0xFFFFFFFF : Word) = ((1 <<< 32 : Nat) : Word) - 1 := by decide
      rw [if_neg (by decide), BitVec.getLsbD_and, hmask, getLsbD_ones (by decide) (by decide),
        Bool.and_comm, Bool.false_or]

/-- The fields of a run say its length and its element. -/
theorem bitmaskImms_fields : ∀ len < 7, ∀ s < 2 ^ len - 1,
    bitmaskImms len s < 64 ∧ bitmaskImms len s % 2 ^ len = s ∧
      (len = 6 ∨ 63 - bitmaskImms len s % 64 ≠ 0 ∧
        highestBit (63 - bitmaskImms len s % 64) 5 = len) := by
  decide

theorem decodeBitmaskImm_of_isRun (h : IsRun sf value len c r) :
    decodeBitmaskImm (decide (len = 6)) r (bitmaskImms len (c - 1)) sf = some value := by
  have hle := h.len_le_six
  have hones := h.ones_pos
  have hlt := h.ones_lt
  obtain ⟨-, hs, hhigh⟩ :=
    bitmaskImms_fields len (by omega) (c - 1) (by omega)
  have hlen : (if decide (len = 6) = true then 6
      else highestBit (63 - bitmaskImms len (c - 1) % 64) 5) = len := by
    split
    · rename_i h6
      exact (of_decide_eq_true h6).symm
    · rename_i h6
      exact (hhigh.resolve_left fun h => h6 (decide_eq_true h)).2
  unfold decodeBitmaskImm
  simp only
  rw [if_neg, if_neg, hlen, hs, if_neg (by omega), Nat.mod_eq_of_lt h.turn_lt,
    Nat.sub_add_cancel hones, Option.some_inj]
  · apply BitVec.eq_of_getLsbD_eq
    intro i hi
    rw [getLsbD_cut, getLsbD_replicate_run hle hlt h.turn_lt hi, h.bits i hi]
  · rintro ⟨hsf, h6⟩
    have hbound := h.len_le
    rw [hsf, of_decide_eq_true h6] at hbound
    exact absurd hbound (by decide)
  · rintro ⟨h6, hzero⟩
    exact (hhigh.resolve_left (of_decide_eq_false h6)).1 hzero

theorem highestBit_le (value len : Nat) : highestBit value len ≤ len := by
  induction len with
  | zero => exact Nat.le_refl 0
  | succ len ih =>
      rw [highestBit]
      split <;> omega

theorem isRun_of_decodeBitmaskImm {n : Bool} {immr imms : Nat}
    (h : decodeBitmaskImm n immr imms sf = some value) :
    ∃ len c r, IsRun sf value len c r := by
  unfold decodeBitmaskImm at h
  simp only at h
  split at h
  · cases h
  · split at h
    · cases h
    · rename_i hwidth
      generalize hlen : (if n = true then 6 else highestBit (63 - imms % 64) 5) = len at h
      have hle : len ≤ if sf then 6 else 5 := by
        rw [← hlen]
        cases n with
        | true =>
            have hsf : sf = true := by
              cases sf with
              | true => rfl
              | false => exact absurd ⟨rfl, rfl⟩ hwidth
            rw [hsf, if_pos rfl, if_pos rfl]
        | false =>
            have hhigh := highestBit_le (63 - imms % 64) 5
            rw [if_neg (by decide)]
            split <;> omega
      have hsix : len ≤ 6 := by split at hle <;> omega
      have hpos := Nat.two_pow_pos len
      have hs := Nat.mod_lt imms hpos
      have hr := Nat.mod_lt immr hpos
      split at h
      · cases h
      · rename_i hfull
        rw [Option.some_inj] at h
        refine ⟨len, imms % 2 ^ len + 1, immr % 2 ^ len, ?_, hle, Nat.succ_pos _, by omega, hr,
          ?_⟩
        · by_contra hzero
          have hlen0 : len = 0 := by omega
          rw [hlen0, pow_zero, Nat.mod_one] at hfull
          exact hfull rfl
        · intro i hi
          rw [← h, getLsbD_cut, getLsbD_replicate_run hsix (by omega) hr hi]

/-- The bits of a word's low element. -/
theorem getLsbD_element (hle : len ≤ 6) (value : Word) (i : Nat) :
    (value &&& elementMask (2 ^ len)).getLsbD i =
      (decide (i < 2 ^ len) && value.getLsbD i) := by
  rw [BitVec.getLsbD_and, getLsbD_elementMask (element_le hle), Bool.and_comm]

theorem getLsbD_zeroWord (i : Nat) : (0 : Word).getLsbD i = false := BitVec.getLsbD_zero

/-- A rotated element of `c` ones is neither empty nor full. -/
theorem ones_of_rotated {e : Nat} (he : e ≤ 64) (hr : r < e) {element : Word}
    (habove : ∀ j, e ≤ j → element.getLsbD j = false)
    (hrotated : rotateElement element e r (elementMask e) = ((1 <<< c : Nat) : Word) - 1)
    (hc : c ≤ 64) (hzero : element ≠ 0) (hfull : element ≠ elementMask e) :
    0 < c ∧ c < e ∧ ∀ i < e, element.getLsbD i = run e c (e - r) i := by
  have hbits : ∀ i < e, element.getLsbD ((i + r) % e) = decide (i < c) := by
    intro i hi
    have hbit := congrArg (BitVec.getLsbD · i) hrotated
    rw [getLsbD_rotateElement he hr habove (by omega), getLsbD_ones (by decide) hc,
      decide_eq_true hi, Bool.true_and] at hbit
    exact hbit
  have hrun : ∀ i < e, element.getLsbD i = run e c (e - r) i := by
    intro i hi
    have hback : ((i + (e - r)) % e + r) % e = i := by
      rw [Nat.mod_add_mod, Nat.add_assoc, Nat.sub_add_cancel (Nat.le_of_lt hr),
        Nat.add_mod_right, Nat.mod_eq_of_lt hi]
    have hbit := hbits ((i + (e - r)) % e) (Nat.mod_lt _ (by omega))
    rw [hback] at hbit
    exact hbit
  refine ⟨?_, ?_, hrun⟩
  · by_contra hc0
    apply hzero
    apply BitVec.eq_of_getLsbD_eq
    intro i hi
    rw [getLsbD_zeroWord]
    by_cases hie : i < e
    · rw [hrun i hie]
      exact decide_eq_false (by omega)
    · exact habove i (Nat.not_lt.mp hie)
  · by_contra hce
    apply hfull
    apply BitVec.eq_of_getLsbD_eq
    intro i hi
    rw [getLsbD_elementMask he]
    by_cases hie : i < e
    · rw [hrun i hie, decide_eq_true hie]
      have hmod := Nat.mod_lt (i + (e - r)) (show 0 < e by omega)
      exact decide_eq_true (by omega)
    · rw [habove i (Nat.not_lt.mp hie), decide_eq_false hie]

/-- What an element size finds is a run of its element. -/
theorem run_of_bitmaskAt {word : Word} {t : Bool × Nat × Nat} (hle : len ≤ 6)
    (h : bitmaskAt word len = some t) :
    ∃ c r, 0 < c ∧ c < 2 ^ len ∧ r < 2 ^ len ∧
      t = (decide (len = 6), r, bitmaskImms len (c - 1)) ∧
      ∀ i < 64, word.getLsbD i = run (2 ^ len) c r i := by
  have hpos := Nat.two_pow_pos len
  have helement := element_le hle
  unfold bitmaskAt at h
  simp only at h
  split at h
  · cases h
  · rename_i hchecks
    push Not at hchecks
    obtain ⟨hrepeats, hzero, hfull⟩ := hchecks
    rw [repeats_iff (element_dvd hle) hpos helement] at hrepeats
    obtain ⟨r, hfind, rfl⟩ := Option.map_eq_some_iff.mp h
    have hrotated := List.find?_some hfind
    simp only [decide_eq_true_eq] at hrotated
    have hr := List.mem_range.mp (List.mem_of_find?_eq_some hfind)
    have hcpop := BitVec.toNat_cpop_le (word &&& elementMask (2 ^ len))
    have habove : ∀ j, 2 ^ len ≤ j → (word &&& elementMask (2 ^ len)).getLsbD j = false := by
      intro j hj
      rw [getLsbD_element hle, decide_eq_false (by omega), Bool.false_and]
    obtain ⟨hones, hlt, hrun⟩ := ones_of_rotated helement hr habove hrotated hcpop hzero hfull
    refine ⟨_, (2 ^ len - r) % 2 ^ len, hones, hlt, Nat.mod_lt _ hpos, rfl, ?_⟩
    intro i hi
    have hmod := Nat.mod_lt i hpos
    have hbit := hrun (i % 2 ^ len) hmod
    rw [getLsbD_element hle, decide_eq_true hmod, Bool.true_and, ← hrepeats i hi, run_mod] at hbit
    rw [hbit]
    unfold run
    rw [Nat.add_mod_mod]

/-- A run of its element is found at its size. -/
theorem bitmaskAt_of_run {word : Word} (hle : len ≤ 6) (hones : 0 < c) (hlt : c < 2 ^ len)
    (hr : r < 2 ^ len) (hword : ∀ i < 64, word.getLsbD i = run (2 ^ len) c r i) :
    (bitmaskAt word len).isSome := by
  have hpos := Nat.two_pow_pos len
  have helement := element_le hle
  have hbits : ∀ i, (word &&& elementMask (2 ^ len)).getLsbD i =
      (decide (i < 2 ^ len) && run (2 ^ len) c r i) := by
    intro i
    rw [getLsbD_element hle]
    by_cases hi : i < 2 ^ len
    · rw [hword i (by omega)]
    · simp [hi]
  have hcount : (word &&& elementMask (2 ^ len)).cpop.toNat = c := by
    rw [toNat_cpop_eq_count, count_eq_of_above helement]
    · rw [← count_run (Nat.le_of_lt hlt) r, Nat.count_eq_card_filter_range,
        Nat.count_eq_card_filter_range]
      congr 1
      apply Finset.filter_congr
      intro i hi
      rw [hbits, decide_eq_true (Finset.mem_range.mp hi), Bool.true_and]
    · intro i hi
      rw [hbits, decide_eq_false (by omega)]
      exact Bool.false_ne_true
  obtain ⟨k, hk, hfull⟩ := exists_full hr
  have hat : ∀ i < 2 ^ len, (word &&& elementMask (2 ^ len)).getLsbD ((i + k) % 2 ^ len) =
      decide (i < c) := by
    intro i hi
    rw [hbits, decide_eq_true (Nat.mod_lt _ hpos), Bool.true_and, run_add, run_full _ _ hfull,
      Nat.mod_eq_of_lt hi]
  have hfirst := hat 0 hpos
  have hlast := hat c hlt
  have hrotated : rotateElement (word &&& elementMask (2 ^ len)) (2 ^ len) k
      (elementMask (2 ^ len)) = ((1 <<< c : Nat) : Word) - 1 := by
    apply BitVec.eq_of_getLsbD_eq
    intro i hi
    rw [getLsbD_rotateElement helement hk _ hi, getLsbD_ones (by decide) (by omega)]
    · by_cases hie : i < 2 ^ len
      · rw [hat i hie, decide_eq_true hie, Bool.true_and]
      · rw [decide_eq_false hie, decide_eq_false (by omega), Bool.false_and]
    · intro j hj
      rw [hbits, decide_eq_false (by omega), Bool.false_and]
  unfold bitmaskAt
  simp only
  rw [if_neg]
  · rw [Option.isSome_map, List.find?_isSome]
    exact ⟨k, List.mem_range.mpr hk, by rw [hcount]; exact decide_eq_true hrotated⟩
  · push Not
    refine ⟨?_, ?_, ?_⟩
    · rw [repeats_iff (element_dvd hle) hpos helement]
      intro i hi
      have hmod := Nat.mod_lt i hpos
      rw [hword i hi, hword (i % 2 ^ len) (by omega), run_mod]
    · intro hzero
      rw [hzero, getLsbD_zeroWord, decide_eq_true hones] at hfirst
      cases hfirst
    · intro hall
      rw [hall, getLsbD_elementMask helement, decide_eq_true (Nat.mod_lt _ hpos),
        decide_eq_false (Nat.lt_irrefl c)] at hlast
      cases hlast

/-- A 32-bit value beside a copy of itself. -/
theorem getLsbD_doubled (hcut : ∀ i, 32 ≤ i → value.getLsbD i = false) {i : Nat} (hi : i < 64) :
    (value ||| (value <<< 32)).getLsbD i = value.getLsbD (i % 32) := by
  rw [BitVec.getLsbD_or, BitVec.getLsbD_shiftLeft]
  by_cases hlow : i < 32
  · rw [Nat.mod_eq_of_lt hlow, decide_eq_true hlow]
    simp
  · have hmod : i % 32 = i - 32 := by omega
    rw [hmod, hcut i (by omega), decide_eq_false hlow, decide_eq_true hi]
    simp

theorem above_of_cut (hcut : (if false = true then value else value &&& 0xFFFFFFFF) = value)
    (i : Nat) (hi : 32 ≤ i) : value.getLsbD i = false := by
  have hbit := getLsbD_cut false value i
  rw [hcut, decide_eq_false (by omega)] at hbit
  exact hbit

/-- The word that is searched for a value of a width. -/
def searched (value : Word) (sf : Bool) : Word := if sf then value else value ||| (value <<< 32)

/-- The element sizes that are tried at a width. -/
def elementLens (sf : Bool) : List Nat := if sf then [1, 2, 3, 4, 5, 6] else [1, 2, 3, 4, 5]

theorem mem_elementLens (sf : Bool) (len : Nat) :
    len ∈ elementLens sf ↔ 1 ≤ len ∧ len ≤ if sf then 6 else 5 := by
  unfold elementLens
  cases sf with
  | true =>
      simp only [if_true, List.mem_cons, List.not_mem_nil, or_false]
      omega
  | false =>
      simp only [Bool.false_eq_true, if_false, List.mem_cons, List.not_mem_nil, or_false]
      omega

/-- A value that passes the checks in front is searched. -/
theorem encodeBitmaskImm_eq (hcut : (if sf then value else value &&& 0xFFFFFFFF) = value)
    (hzero : value ≠ 0) (hfull : value ≠ if sf then BitVec.allOnes 64 else 0xFFFFFFFF) :
    encodeBitmaskImm value sf = (elementLens sf).findSome? (bitmaskAt (searched value sf)) := by
  unfold encodeBitmaskImm
  simp only
  rw [hcut, if_neg fun h => h.2 rfl, if_neg hzero, if_neg, if_neg]
  · rfl
  · rintro ⟨rfl, heq⟩
    exact hfull heq
  · rintro ⟨rfl, heq⟩
    exact hfull heq

/-- What encodes passed the checks in front. -/
theorem cut_of_encodeBitmaskImm {t : Bool × Nat × Nat}
    (h : encodeBitmaskImm value sf = some t) :
    (if sf then value else value &&& 0xFFFFFFFF) = value ∧
      (elementLens sf).findSome? (bitmaskAt (searched value sf)) = some t := by
  unfold encodeBitmaskImm at h
  simp only at h
  have hcut : (if sf then value else value &&& 0xFFFFFFFF) = value := by
    cases sf with
    | true => rfl
    | false =>
        by_contra hne
        rw [if_pos ⟨rfl, Ne.symm hne⟩] at h
        cases h
  rw [hcut, if_neg fun h => h.2 rfl] at h
  refine ⟨hcut, ?_⟩
  split at h
  · cases h
  · split at h
    · cases h
    · split at h
      · cases h
      · exact h

theorem isRun_of_encodeBitmaskImm {t : Bool × Nat × Nat}
    (h : encodeBitmaskImm value sf = some t) :
    ∃ len c r, IsRun sf value len c r ∧
      t = (decide (len = 6), r, bitmaskImms len (c - 1)) := by
  obtain ⟨hcut, hsearch⟩ := cut_of_encodeBitmaskImm h
  obtain ⟨len, hmem, hat⟩ := List.exists_of_findSome?_eq_some hsearch
  obtain ⟨hpos, hle⟩ := (mem_elementLens sf len).mp hmem
  have hsix : len ≤ 6 := by split at hle <;> omega
  obtain ⟨c, r, hones, hlt, hr, ht, hword⟩ := run_of_bitmaskAt hsix hat
  refine ⟨len, c, r, ⟨hpos, hle, hones, hlt, hr, ?_⟩, ht⟩
  intro i hi
  have hbit := getLsbD_cut sf value i
  rw [hcut] at hbit
  rw [hbit]
  cases sf with
  | true => rw [← hword i hi, searched, if_pos rfl]
  | false =>
      by_cases hlow : i < 32
      · have hrun := hword i hi
        rw [searched, if_neg (by decide), getLsbD_doubled (above_of_cut hcut) hi,
          Nat.mod_eq_of_lt hlow] at hrun
        rw [hrun]
      · simp [hlow]

theorem encodeBitmaskImm_of_isRun (h : IsRun sf value len c r) :
    (encodeBitmaskImm value sf).isSome := by
  have hsix := h.len_le_six
  have hpos := Nat.two_pow_pos len
  have hcut : (if sf then value else value &&& 0xFFFFFFFF) = value := by
    apply BitVec.eq_of_getLsbD_eq
    intro i hi
    rw [getLsbD_cut, h.bits i hi, ← Bool.and_assoc, Bool.and_self]
  have hword : ∀ i < 64, (searched value sf).getLsbD i = run (2 ^ len) c r i := by
    intro i hi
    unfold searched
    have hbits := h.bits
    have hle := h.len_le
    cases sf with
    | true =>
        rw [if_pos rfl, hbits i hi]
        rfl
    | false =>
        rw [if_neg (by decide)] at hle
        have hdvd : 2 ^ len ∣ 32 := pow_dvd_pow 2 hle
        rw [if_neg (by decide), getLsbD_doubled (above_of_cut hcut) hi, hbits _ (by omega),
          ← run_mod, Nat.mod_mod_of_dvd _ hdvd, run_mod, decide_eq_true (Nat.mod_lt i (by decide))]
        rfl
  have hfound := bitmaskAt_of_run hsix h.ones_pos h.ones_lt h.turn_lt hword
  have hmem := (mem_elementLens sf len).mpr ⟨h.len_pos, h.len_le⟩
  obtain ⟨k, hrun⟩ := h.exists_bits
  rw [encodeBitmaskImm_eq hcut]
  · rw [List.findSome?_isSome_iff]
    exact ⟨len, hmem, hfound⟩
  · intro hzero
    have hbit := hrun 0 hpos
    rw [hzero, getLsbD_zeroWord, decide_eq_true h.ones_pos] at hbit
    cases hbit
  · intro hfull
    have hbit := hrun c h.ones_lt
    have hlow := Nat.mod_lt (c + k) hpos
    rw [hfull, decide_eq_false (Nat.lt_irrefl c)] at hbit
    have hle := h.element_le
    cases sf with
    | true =>
        rw [if_pos rfl] at hle
        rw [if_pos rfl, BitVec.getLsbD_allOnes, decide_eq_true (by omega)] at hbit
        cases hbit
    | false =>
        rw [if_neg (by decide)] at hle
        have hmask : (0xFFFFFFFF : Word) = ((1 <<< 32 : Nat) : Word) - 1 := by decide
        rw [if_neg (by decide), hmask, getLsbD_ones (by decide) (by decide),
          decide_eq_true (by omega)] at hbit
        cases hbit

theorem decodeBitmaskImm_of_encode {n : Bool} {immr imms : Nat}
    (h : encodeBitmaskImm value sf = some (n, immr, imms)) :
    immr < 64 ∧ imms < 64 ∧ decodeBitmaskImm n immr imms sf = some value := by
  obtain ⟨len, c, r, hrun, ht⟩ := isRun_of_encodeBitmaskImm h
  simp only [Prod.mk.injEq] at ht
  obtain ⟨rfl, rfl, rfl⟩ := ht
  have hones := hrun.ones_pos
  have hlt := hrun.ones_lt
  have hle := hrun.len_le_six
  refine ⟨Nat.lt_of_lt_of_le hrun.turn_lt (element_le hle), ?_, decodeBitmaskImm_of_isRun hrun⟩
  exact (bitmaskImms_fields len (by omega) (c - 1) (by omega)).1

theorem encodeBitmaskImm_of_decode {n : Bool} {immr imms : Nat}
    (h : decodeBitmaskImm n immr imms sf = some value) : (encodeBitmaskImm value sf).isSome := by
  obtain ⟨len, c, r, hrun⟩ := isRun_of_decodeBitmaskImm h
  exact encodeBitmaskImm_of_isRun hrun

end Elements

section Shifts

/-- The outcome of shifting `w` bits by `k`, which overflows from `w` on. -/
def shifted {α : Type} (w k : Nat) (outcome : α) : Option α := if k < w then some outcome else none

@[simp]
theorem shifted_of_lt {α : Type} {w k : Nat} (h : k < w) (outcome : α) :
    shifted w k outcome = some outcome := if_pos h

def highestBitChecked (value : Nat) : Nat → Option Nat
  | 0 => some 0
  | len + 1 => do
      let isSet ← shifted 8 (len + 1) (value.testBit (len + 1))
      if isSet then some (len + 1) else highestBitChecked value len

def elementMaskChecked (esize : Nat) : Option Word :=
  if esize = 64 then some (BitVec.allOnes 64)
  else do
    let top ← shifted 64 esize ((1 <<< esize : Nat) : Word)
    some (top - 1)

/-- `rotateElement` with its shifts checked. -/
def rotateElementChecked (element : Word) (esize r : Nat) (mask : Word) : Option Word :=
  if r = 0 then some element
  else do
    let low ← shifted 64 r (element >>> r)
    let high ← shifted 64 (esize - r) (element <<< (esize - r))
    some ((low ||| high) &&& mask)

def replicateChecked (result : Word) (width : Nat) : Nat → Option Word
  | 0 => some result
  | fuel + 1 =>
      if width < 64 then do
        let copy ← shifted 64 width (result <<< width)
        replicateChecked (result ||| copy) (width * 2) fuel
      else some result

/-- The element size's exponent with its shifts checked. -/
def elementLenChecked (n : Bool) (notImms : Nat) : Option Nat :=
  if n then some 6 else highestBitChecked notImms 5

/-- `decodeBitmaskImm` with every shift checked against the width of what it shifts: `none`
is an overflow. -/
def decodeBitmaskChecked (n : Bool) (immr imms : Nat) (sf : Bool) : Option (Option Word) :=
  let notImms := 0x3F - imms % 64
  if n = false ∧ notImms = 0 then some none
  else do
    let len ← elementLenChecked n notImms
    if sf = false ∧ n = true then some none
    else do
      let esize ← shifted 32 len (2 ^ len)
      let s := imms % esize
      let r := immr % esize
      if s = esize - 1 then some none
      else do
        let top ← shifted 64 (s + 1) ((1 <<< (s + 1) : Nat) : Word)
        let mask ← elementMaskChecked esize
        let element ← rotateElementChecked (top - 1) esize r mask
        let result ← replicateChecked element esize 6
        some (some (if sf then result else result &&& 0xFFFFFFFF))

theorem highestBitChecked_eq (value : Nat) {len : Nat} (h : len < 8) :
    highestBitChecked value len = some (highestBit value len) := by
  induction len with
  | zero => rfl
  | succ len ih =>
      rw [highestBitChecked, highestBit, shifted_of_lt h, ih (by omega)]
      simp only [Option.bind_eq_bind, Option.bind_some]
      split <;> rfl

theorem elementMaskChecked_eq {esize : Nat} (h : esize ≤ 64) :
    elementMaskChecked esize = some (elementMask esize) := by
  unfold elementMaskChecked elementMask
  split
  · rfl
  · rw [shifted_of_lt (by omega)]
    rfl

theorem rotateElementChecked_eq (element : Word) {esize r : Nat} (h : esize ≤ 64) (hr : r < esize)
    (mask : Word) :
    rotateElementChecked element esize r mask = some (rotateElement element esize r mask) := by
  unfold rotateElementChecked rotateElement
  split
  · rfl
  · rw [shifted_of_lt (by omega), shifted_of_lt (by omega)]
    rfl

theorem replicateChecked_eq (result : Word) (width fuel : Nat) :
    replicateChecked result width fuel = some (replicate result width fuel) := by
  induction fuel generalizing result width with
  | zero => rfl
  | succ fuel ih =>
      rw [replicateChecked, replicate]
      split
      · rename_i hlt
        rw [shifted_of_lt hlt]
        exact ih _ _
      · rfl

/-- No shift of the decoder overflows. -/
theorem decodeBitmaskChecked_eq (n : Bool) (immr imms : Nat) (sf : Bool) :
    decodeBitmaskChecked n immr imms sf = some (decodeBitmaskImm n immr imms sf) := by
  have hlen : elementLenChecked n (0x3F - imms % 64) =
      some (if n then 6 else highestBit (0x3F - imms % 64) 5) := by
    unfold elementLenChecked
    split
    · rfl
    · exact highestBitChecked_eq _ (by decide)
  have hle : (if n then 6 else highestBit (0x3F - imms % 64) 5) ≤ 6 := by
    have hhigh := highestBit_le (0x3F - imms % 64) 5
    split <;> omega
  unfold decodeBitmaskChecked decodeBitmaskImm
  simp only [hlen, Option.bind_eq_bind, Option.bind_some]
  generalize (if n then 6 else highestBit (0x3F - imms % 64) 5) = len at hle
  have helement := element_le hle
  have hpos := Nat.two_pow_pos len
  have hs := Nat.mod_lt imms hpos
  have hr := Nat.mod_lt immr hpos
  rw [shifted_of_lt (show len < 32 by omega)]
  simp only [Option.bind_some]
  split
  · rfl
  · split
    · rfl
    · split
      · rfl
      · rw [shifted_of_lt (by omega), elementMaskChecked_eq helement]
        simp only [Option.bind_some]
        rw [rotateElementChecked_eq _ helement hr]
        simp only [Option.bind_some]
        rw [replicateChecked_eq]
        rfl

end Shifts

/-- Bitmask immediates round-trip at each width: what encodes decodes to itself, every value
that a triple of fields stands for encodes, and no shift overflows on the way. -/
theorem bitmask_round_trip (sf : Bool) :
    (∀ value n immr imms, encodeBitmaskImm value sf = some (n, immr, imms) →
      immr < 64 ∧ imms < 64 ∧ decodeBitmaskImm n immr imms sf = some value) ∧
    (∀ n immr imms value, decodeBitmaskImm n immr imms sf = some value →
      (encodeBitmaskImm value sf).isSome) ∧
    (∀ value, encodeBitmaskImm value sf = none ↔
      ∀ n immr imms, immr < 64 → imms < 64 → decodeBitmaskImm n immr imms sf ≠ some value) ∧
    ∀ n immr imms,
      decodeBitmaskChecked n immr imms sf = some (decodeBitmaskImm n immr imms sf) := by
  refine ⟨fun _ _ _ _ => decodeBitmaskImm_of_encode, fun _ _ _ _ => encodeBitmaskImm_of_decode, ?_,
    fun n immr imms => decodeBitmaskChecked_eq n immr imms sf⟩
  intro value
  constructor
  · intro hnone n immr imms _ _ h
    have hsome := encodeBitmaskImm_of_decode h
    rw [hnone] at hsome
    cases hsome
  · intro h
    rcases hencode : encodeBitmaskImm value sf with _ | ⟨n, immr, imms⟩
    · rfl
    · obtain ⟨himmr, himms, hdecode⟩ := decodeBitmaskImm_of_encode hencode
      exact absurd hdecode (h n immr imms himmr himms)

/-- The low byte's mask is eight ones in an element of 64 bits. -/
theorem bitmask_round_trip_lowByte : decodeBitmaskImm true 0 7 true = some 0xFF :=
  ((bitmask_round_trip true).1 0xFF true 0 7 (by decide)).2.2

end Decode

end Playground
