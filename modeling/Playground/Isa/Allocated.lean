/-
The integer single-register loads and stores against the architecture's own tables: which
words of their space are allocated, to what, and which others the decoder takes for one.
-/
import Playground.Isa.LoadWords

namespace Playground

open Fields (bits)

namespace Instruction

variable {V : Type}

def IsLoadOrStore : Instruction V → Prop
  | .ldSt _ _ _ _ _ _ => True
  | .ldrSignExtended _ _ _ _ _ _ => True
  | _ => False

end Instruction

namespace Decode

variable {V : Type} (w : BitVec 32)

/-- The words of the space: a scaled offset, a nine-bit offset or a register offset. -/
def SingleSpace : Prop := bits w 29 27 = 0b111 ∧ bit w 26 = 0 ∧ bit w 25 = 0

/-- The extensions of an offset register: the option field's middle bit is set. -/
def a64Extend : Nat → Option ExtendType
  | 0b010 => some .uxtw
  | 0b011 => some .lsl
  | 0b110 => some .sxtw
  | 0b111 => some .sxtx
  | _ => none

/-- How an allocated word addresses memory.  The rest of the space is unallocated, or
belongs to the atomics, the unprivileged loads and stores and the authenticated loads. -/
def a64Addressing : Option (LdStOffset × IndexMode) :=
  match bits w 25 24, bit w 21, bits w 11 10 with
  | 0b01, _, _ =>
      some (.immediate (BitVec.ofNat 64 (bits w 21 10 * 2 ^ bits w 31 30)), .signedOffset)
  | 0b00, 0, 0b00 =>
      some (.immediate ((BitVec.ofNat 9 (bits w 20 12)).signExtend 64), .signedOffset)
  | 0b00, 0, 0b01 => some (.immediate ((BitVec.ofNat 9 (bits w 20 12)).signExtend 64), .postIndex)
  | 0b00, 0, 0b11 => some (.immediate ((BitVec.ofNat 9 (bits w 20 12)).signExtend 64), .preIndex)
  | 0b00, 1, 0b10 =>
      (a64Extend (bits w 15 13)).map fun extend =>
        (.register (bits w 20 16) extend (if bit w 12 = 1 then some (bits w 31 30) else none),
          .signedOffset)
  | _, _, _ => none

/-- The instruction of an allocated size and opc.  A sign-extending load is shorter than its
target; the prefetches are not loads. -/
def a64Operation (offset : LdStOffset) (mode : IndexMode) : Option (Instruction V) :=
  let size := MemSize.fromSizeField (bits w 31 30)
  match bits w 31 30, bits w 23 22 with
  | _, 0b00 => some (.ldSt .str (bits w 4 0) (bits w 9 5) offset size mode)
  | _, 0b01 => some (.ldSt .ldr (bits w 4 0) (bits w 9 5) offset size mode)
  | 0b00, 0b10 => some (.ldrSignExtended (bits w 4 0) (bits w 9 5) offset size mode true)
  | 0b00, 0b11 => some (.ldrSignExtended (bits w 4 0) (bits w 9 5) offset size mode false)
  | 0b01, 0b10 => some (.ldrSignExtended (bits w 4 0) (bits w 9 5) offset size mode true)
  | 0b01, 0b11 => some (.ldrSignExtended (bits w 4 0) (bits w 9 5) offset size mode false)
  | 0b10, 0b10 => some (.ldrSignExtended (bits w 4 0) (bits w 9 5) offset size mode true)
  | _, _ => none

/-- The load or store that a word of the space is allocated to. -/
def a64Ldst : Option (Instruction V) := do
  let (offset, mode) ← a64Addressing w
  a64Operation w offset mode

/-- A word is taken for a load or store only as the one it is allocated to. -/
def DecodesAllocated (vec : VectorDecoder V) : Prop :=
  ∀ i : Instruction V, decode vec w = .ok i → i.IsLoadOrStore → a64Ldst w = some i

/-- The decoder takes the word: its size and opc are not the prefetches', and the option
field of what it reads as a register offset is one it knows. -/
def TakesWord : Prop :=
  ¬ (bits w 31 30 = 0b11 ∧ 0b10 ≤ bits w 23 22) ∧
    (bits w 25 24 = 0b01 ∨ bits w 11 10 ≠ 0b10 ∨ bit w 14 = 1)

/-- What the decoder does not look at: bit 21 tells the register offset from the nine-bit
one, and a word-sized sign-extending load has no word-sized target. -/
def Misplaced : Prop :=
  (bits w 25 24 = 0b00 ∧ ¬ (bit w 21 = 1 ↔ bits w 11 10 = 0b10)) ∨
    (bits w 31 30 = 0b10 ∧ bits w 23 22 = 0b11)

instance : Decidable (SingleSpace w) := inferInstanceAs (Decidable (_ ∧ _ ∧ _))

instance : Decidable (TakesWord w) := inferInstanceAs (Decidable (_ ∧ _))

instance : Decidable (Misplaced w) := inferInstanceAs (Decidable (_ ∨ _))

section Single

variable {w}

theorem bits_lt (hi lo : Nat) : bits w hi lo < 2 ^ (hi + 1 - lo) :=
  Nat.mod_lt _ (Nat.two_pow_pos _)

/-- The whole space is decoded by one function. -/
theorem decode_single (vec : VectorDecoder V) (h : SingleSpace w) :
    decode vec w = decodeLdstSingle w := by
  obtain ⟨h29, h26, h25⟩ := h
  unfold bit at h26 h25
  have hsize := bits_lt (w := w) 31 30
  have hlast := bits_lt (w := w) 24 24
  have htop : bits w 31 24 = bits w 31 30 * 64 + 56 + bits w 24 24 := by
    unfold bits at h29 h26 h25 ⊢
    omega
  have h27 : bits w 27 27 = 1 := by
    unfold bits at h29 ⊢
    omega
  rw [decode_ldst vec h27 h25]
  generalize bits w 31 30 = size at hsize htop
  generalize bits w 24 24 = last at hlast htop
  apply decodeLdstGroup_single vec htop
  · interval_cases size <;> interval_cases last <;> decide
  · interval_cases size <;> interval_cases last <;> decide
  · interval_cases size <;> interval_cases last <;> decide

theorem fromSizeField_bytes : ∀ n < 4, (MemSize.fromSizeField n).bytes = 2 ^ n := by decide

theorem fromSizeField_log2 : ∀ n < 4, (MemSize.fromSizeField n).log2 = n := by decide

theorem ldstExtend_eq : ∀ option < 8, ldstExtend option = a64Extend option := by decide

theorem a64Extend_isSome : ∀ option < 8,
    (a64Extend option).isSome = true ↔ option / 2 % 2 = 1 := by decide

/-- The addressing the decoder reads, whatever bit 21 says. -/
def takenAddressing (w : BitVec 32) : Option (LdStOffset × IndexMode) :=
  if bits w 25 24 = 0b01 then
    some (scaledOffset w (.fromSizeField (bits w 31 30)), .signedOffset)
  else if bits w 11 10 = 0b10 then
    (a64Extend (bits w 15 13)).map fun extend =>
      (.register (rm w) extend
        (if bit w 12 = 1 then some (MemSize.fromSizeField (bits w 31 30)).log2 else none),
        .signedOffset)
  else (imm9Mode (bits w 11 10)).map fun mode => (imm9Offset w, mode)

theorem SingleSpace.class_cases (h : SingleSpace w) :
    bits w 25 24 = 0b01 ∨ bits w 25 24 = 0b00 := by
  obtain ⟨-, -, h25⟩ := h
  unfold bit at h25
  unfold bits at h25 ⊢
  omega

theorem decodeLdstSingle_eq (h : SingleSpace w) :
    (decodeLdstSingle w : Except EmuError (Instruction V)) =
      match takenAddressing w with
      | none => unknown w
      | some (offset, mode) =>
          decodeLdstOp w (bits w 23 22) (.fromSizeField (bits w 31 30)) offset mode := by
  have hclass := h.class_cases
  obtain ⟨h29, h26, h25⟩ := h
  have h28 : bits w 29 28 = 0b11 := by
    unfold bits at h29 ⊢
    omega
  have h24 : bits w 25 24 = 0b00 → bit w 24 = 0 := by
    unfold bit bits
    omega
  have h26' : bit w 26 ≠ 1 := by omega
  unfold decodeLdstSingle takenAddressing
  simp only [if_neg h26', h28, and_true, true_and]
  rcases hclass with hclass | hclass
  · rw [if_pos hclass, if_pos hclass]
  · have hne : bits w 25 24 ≠ 0b01 := by omega
    rw [if_neg hne, if_pos (h24 hclass), if_neg hne]
    split
    · unfold decodeLdstRegOffset
      rw [ldstExtend_eq _ (bits_lt 15 13)]
      cases a64Extend (bits w 15 13) <;> rfl
    · cases imm9Mode (bits w 11 10) <;> rfl

theorem imm9Mode_isSome : ∀ idx < 4, idx ≠ 0b10 → (imm9Mode idx).isSome = true := by decide

theorem takenAddressing_isSome (w : BitVec 32) :
    (takenAddressing w).isSome = true ↔
      bits w 25 24 = 0b01 ∨ bits w 11 10 ≠ 0b10 ∨ bit w 14 = 1 := by
  have hoption : bits w 15 13 / 2 % 2 = bit w 14 := by
    unfold bit bits
    omega
  unfold takenAddressing
  split
  · rename_i hclass
    simp [hclass]
  · rename_i hclass
    split
    · rename_i hidx
      rw [Option.isSome_map, a64Extend_isSome _ (bits_lt 15 13), hoption]
      simp [hclass, hidx]
    · rename_i hidx
      rw [Option.isSome_map, imm9Mode_isSome _ (bits_lt 11 10) hidx]
      simp [hidx]

/-- Where bit 21 is in its place the architecture addresses memory the same way. -/
theorem a64Addressing_eq (h : SingleSpace w)
    (hplace : bits w 25 24 = 0b00 → (bit w 21 = 1 ↔ bits w 11 10 = 0b10)) :
    a64Addressing w = takenAddressing w := by
  have hsize := bits_lt (w := w) 31 30
  unfold a64Addressing takenAddressing
  rcases h.class_cases with hclass | hclass
  · rw [hclass]
    simp only [if_true, scaledOffset, fromSizeField_bytes _ hsize]
  · have hplace := hplace hclass
    have h21 := bits_lt (w := w) 21 21
    have hidx := bits_lt (w := w) 11 10
    rw [hclass, if_neg (show ¬ (0b00 = 0b01) by decide), fromSizeField_log2 _ hsize]
    unfold imm9Offset rm signExtend
    change bit w 21 < 2 at h21
    change bits w 11 10 < 4 at hidx
    generalize bit w 21 = b at h21 hplace ⊢
    generalize bits w 11 10 = idx at hidx hplace ⊢
    interval_cases b <;> interval_cases idx <;> simp [imm9Mode] at hplace ⊢

theorem a64Addressing_eq_none (hclass : bits w 25 24 = 0b00)
    (hplace : ¬ (bit w 21 = 1 ↔ bits w 11 10 = 0b10)) : a64Addressing w = none := by
  have h21 := bits_lt (w := w) 21 21
  have hidx := bits_lt (w := w) 11 10
  unfold a64Addressing
  rw [hclass]
  change bit w 21 < 2 at h21
  change bits w 11 10 < 4 at hidx
  generalize bit w 21 = b at h21 hplace ⊢
  generalize bits w 11 10 = idx at hidx hplace ⊢
  interval_cases b <;> interval_cases idx <;> simp at hplace ⊢

section Operations

variable (offset : LdStOffset) (mode : IndexMode)

theorem decodeLdstOp_prefetch (hsize : bits w 31 30 = 0b11) (hopc : 0b10 ≤ bits w 23 22) :
    (decodeLdstOp w (bits w 23 22) (.fromSizeField (bits w 31 30)) offset mode :
      Except EmuError (Instruction V)) = unknown w := by
  have hlt := bits_lt (w := w) 23 22
  rw [hsize]
  generalize bits w 23 22 = opc at hopc hlt ⊢
  interval_cases opc <;> rfl

/-- The other sizes and opcs are all taken, and but for the word-sized target rightly. -/
theorem decodeLdstOp_taken (h : ¬ (bits w 31 30 = 0b11 ∧ 0b10 ≤ bits w 23 22)) :
    ∃ i : Instruction V, i.IsLoadOrStore ∧
      decodeLdstOp w (bits w 23 22) (.fromSizeField (bits w 31 30)) offset mode = .ok i ∧
      a64Operation w offset mode =
        if bits w 31 30 = 0b10 ∧ bits w 23 22 = 0b11 then none else some i := by
  have hsize := bits_lt (w := w) 31 30
  have hopc := bits_lt (w := w) 23 22
  change bits w 31 30 < 4 at hsize
  change bits w 23 22 < 4 at hopc
  unfold a64Operation
  generalize bits w 31 30 = size at hsize h ⊢
  generalize bits w 23 22 = opc at hopc h ⊢
  interval_cases opc <;> interval_cases size <;>
    first
    | exact absurd (by decide) h
    | exact ⟨.ldSt .str _ _ _ _ _, trivial, rfl, rfl⟩
    | exact ⟨.ldSt .ldr _ _ _ _ _, trivial, rfl, rfl⟩
    | exact ⟨.ldrSignExtended _ _ _ _ _ _, trivial, rfl, rfl⟩

end Operations

theorem takesWord_iff (w : BitVec 32) :
    TakesWord w ↔ ¬ (bits w 31 30 = 0b11 ∧ 0b10 ≤ bits w 23 22) ∧
      (takenAddressing w).isSome = true := by
  rw [takenAddressing_isSome]
  rfl

theorem decode_of_takesWord (vec : VectorDecoder V) (h : SingleSpace w) (htakes : TakesWord w) :
    ∃ i : Instruction V, i.IsLoadOrStore ∧ decode vec w = .ok i ∧
      (Misplaced w → a64Ldst (V := V) w = none) ∧ (¬ Misplaced w → a64Ldst w = some i) := by
  rw [takesWord_iff] at htakes
  obtain ⟨hrow, haddressing⟩ := htakes
  obtain ⟨⟨offset, mode⟩, htaken⟩ := Option.isSome_iff_exists.mp haddressing
  obtain ⟨i, hi, hdecode, hop⟩ := decodeLdstOp_taken (V := V) offset mode hrow
  refine ⟨i, hi, ?_, ?_, ?_⟩
  · rw [decode_single vec h, decodeLdstSingle_eq h, htaken]
    exact hdecode
  · intro hmisplaced
    unfold a64Ldst
    rcases hmisplaced with ⟨hclass, hplace⟩ | hwide
    · rw [a64Addressing_eq_none hclass hplace]
      rfl
    · rcases haddr : a64Addressing w with _ | ⟨offset', mode'⟩
      · rfl
      · obtain ⟨j, -, -, hop'⟩ := decodeLdstOp_taken (V := V) offset' mode' hrow
        rw [if_pos hwide] at hop'
        exact hop'
  · intro hplaced
    have hplace : bits w 25 24 = 0b00 → (bit w 21 = 1 ↔ bits w 11 10 = 0b10) := by
      intro hclass
      by_contra hne
      exact hplaced (.inl ⟨hclass, hne⟩)
    unfold a64Ldst
    rw [a64Addressing_eq h hplace, htaken]
    rw [if_neg fun hwide => hplaced (.inr hwide)] at hop
    exact hop

theorem decode_of_not_takesWord (vec : VectorDecoder V) (h : SingleSpace w)
    (htakes : ¬ TakesWord w) : (decode vec w : Except EmuError (Instruction V)) = unknown w := by
  rw [decode_single vec h, decodeLdstSingle_eq h]
  rcases htaken : takenAddressing w with _ | ⟨offset, mode⟩
  · rfl
  · rw [takesWord_iff, htaken, not_and_or, not_not] at htakes
    rcases htakes with ⟨hsize, hopc⟩ | hnone
    · exact decodeLdstOp_prefetch offset mode hsize hopc
    · exact absurd rfl hnone

/-- In the space a word is executed as the load or store it is allocated to, exactly unless
the decoder takes it without looking at what tells it from one. -/
theorem decodesAllocated_iff (vec : VectorDecoder V) (h : SingleSpace w) :
    DecodesAllocated w vec ↔ ¬ (TakesWord w ∧ Misplaced w) := by
  by_cases htakes : TakesWord w
  · obtain ⟨i, hi, hdecode, hnone, hsome⟩ := decode_of_takesWord vec h htakes
    constructor
    · rintro hallocated ⟨-, hmisplaced⟩
      have hw := hallocated i hdecode hi
      rw [hnone hmisplaced] at hw
      cases hw
    · intro hcondition j hj _
      rw [hdecode] at hj
      cases hj
      exact hsome fun hmisplaced => hcondition ⟨htakes, hmisplaced⟩
  · constructor
    · rintro - ⟨htaken, -⟩
      exact htakes htaken
    · intro _ j hj
      rw [decode_of_not_takesWord vec h htakes] at hj
      cases hj

/-- The integer instructions alone. -/
def integerOnly : VectorDecoder Empty where
  decodeFpGroup w := .error (.unknownInstruction w)
  decodeSimdLdstStructure _ := none

/-- LDR with an offset of eight is allocated. -/
theorem decodesAllocated_iff_ldr :
    DecodesAllocated 0xF9400420 integerOnly :=
  (decodesAllocated_iff integerOnly (by decide)).mpr (by decide)

/-- LDADD of x0 into x1 at [x2] is an atomic, and executes as a store. -/
theorem not_decodesAllocated_ldadd :
    SingleSpace 0xF8200041 ∧ ¬ DecodesAllocated 0xF8200041 integerOnly := by
  refine ⟨by decide, ?_⟩
  intro h
  have hstore := h (.ldSt .str 1 2 (.immediate 0) .x .signedOffset) (by decide) trivial
  revert hstore
  decide

end Single

end Decode

end Playground
