/-
Bytes read as text, a replacement character standing for what is not UTF-8.
-/
import Playground.Machine.Registers

namespace Playground

namespace Hosted

/-- The bytes a sequence with this first byte takes; none for a byte no sequence starts
with. -/
def sequenceLength (b : Byte) : Nat :=
  if b < 0x80 then 1
  else if 0xC2 ≤ b ∧ b ≤ 0xDF then 2
  else if 0xE0 ≤ b ∧ b ≤ 0xEF then 3
  else if 0xF0 ≤ b ∧ b ≤ 0xF4 then 4
  else 0

def isContinuation (b : Byte) : Bool := decide (0x80 ≤ b ∧ b ≤ 0xBF)

/-- Whether a second byte may follow a first: not in a form longer than it need be, a
surrogate, or past the last character. -/
def secondFits (b c : Byte) : Bool :=
  if b = 0xE0 then decide (0xA0 ≤ c ∧ c ≤ 0xBF)
  else if b = 0xED then decide (0x80 ≤ c ∧ c ≤ 0x9F)
  else if b = 0xF0 then decide (0x90 ≤ c ∧ c ≤ 0xBF)
  else if b = 0xF4 then decide (0x80 ≤ c ∧ c ≤ 0x8F)
  else isContinuation c

/-- The bytes after `b` that go on its sequence. -/
def continuations (b : Byte) : List Byte → List Byte
  | [] => []
  | c :: rest =>
      if secondFits b c then c :: (rest.take (sequenceLength b - 2)).takeWhile isContinuation
      else []

/-- The bits of the character in its first byte. -/
def leadBits (b : Byte) : Nat :=
  b.toNat % (if sequenceLength b = 2 then 32 else if sequenceLength b = 3 then 16 else 8)

def replacementCharacter : Char := Char.ofNat 0xFFFD

/-- The character at the start of `b :: rest` and the bytes it takes: the longest start of a
sequence that is not one is a single replacement character. -/
def decodeFirst (b : Byte) (rest : List Byte) : Char × Nat :=
  if sequenceLength b = 1 then (Char.ofNat b.toNat, 1)
  else if sequenceLength b = 0 then (replacementCharacter, 1)
  else
    let more := continuations b rest
    if more.length + 1 = sequenceLength b then
      (Char.ofNat (more.foldl (fun n c => n * 64 + c.toNat % 64) (leadBits b)), sequenceLength b)
    else (replacementCharacter, more.length + 1)

/-- The characters of the bytes, `skip` of them being part of the one before. -/
def lossyFrom : Nat → List Byte → List Char
  | _, [] => []
  | skip + 1, _ :: rest => lossyFrom skip rest
  | 0, b :: rest => (decodeFirst b rest).1 :: lossyFrom ((decodeFirst b rest).2 - 1) rest

def fromUtf8Lossy (bytes : List Byte) : List Char := lossyFrom 0 bytes

/-- Unicode's White_Space. -/
def isWhitespace (c : Char) : Bool :=
  (decide (9 ≤ c.toNat) && decide (c.toNat ≤ 13)) || (decide (0x2000 ≤ c.toNat) &&
    decide (c.toNat ≤ 0x200A)) || c.toNat ∈ [0x20, 0x85, 0xA0, 0x1680, 0x2028, 0x2029, 0x202F,
    0x205F, 0x3000]

@[simp]
theorem fromUtf8Lossy_nil : fromUtf8Lossy [] = [] := rfl

/-- An ASCII byte is a character of its own. -/
theorem fromUtf8Lossy_ascii {b : Byte} (h : b < 0x80) (rest : List Byte) :
    fromUtf8Lossy (b :: rest) = Char.ofNat b.toNat :: fromUtf8Lossy rest := by
  have hlen : sequenceLength b = 1 := if_pos h
  have hfirst : decodeFirst b rest = (Char.ofNat b.toNat, 1) := if_pos hlen
  rw [fromUtf8Lossy, lossyFrom, hfirst]
  rfl

theorem le_foldl_continuations (more : List Byte) (n : Nat) :
    n ≤ more.foldl (fun n c => n * 64 + c.toNat % 64) n := by
  induction more generalizing n with
  | nil => exact le_rfl
  | cons c more ih =>
      calc n ≤ n * 64 + c.toNat % 64 := by omega
        _ ≤ more.foldl (fun n c => n * 64 + c.toNat % 64) (n * 64 + c.toNat % 64) := ih _

/-- The first two bytes of a sequence of three or four say more than one bit. -/
theorem two_le_of_secondFits {b c : Byte} (hlen : 2 < sequenceLength b)
    (hfits : secondFits b c = true) : 2 ≤ leadBits b * 64 + c.toNat % 64 := by
  have hlead : ∀ b : Byte, 2 < sequenceLength b → b ≠ 0xE0 → b ≠ 0xF0 → 1 ≤ leadBits b := by
    decide
  by_cases he : b = 0xE0
  · subst he
    have hc : 0xA0 ≤ c.toNat ∧ c.toNat ≤ 0xBF := of_decide_eq_true hfits
    omega
  · by_cases hf : b = 0xF0
    · subst hf
      have hc : 0x90 ≤ c.toNat ∧ c.toNat ≤ 0xBF := of_decide_eq_true hfits
      omega
    · have hpos := hlead b hlen he hf
      omega

/-- What a whole sequence of more than one byte says is past ASCII. -/
theorem le_foldl_of_complete {b : Byte} {rest : List Byte} (hlen : 1 < sequenceLength b)
    (hmore : (continuations b rest).length + 1 = sequenceLength b) :
    0x80 ≤ (continuations b rest).foldl (fun n c => n * 64 + c.toNat % 64) (leadBits b) := by
  have htwo : ∀ b : Byte, sequenceLength b = 2 → 2 ≤ leadBits b := by decide
  cases rest with
  | nil =>
      rw [continuations, List.length_nil] at hmore
      omega
  | cons c rest =>
      by_cases hfits : secondFits b c = true
      · rw [continuations, if_pos hfits] at hmore ⊢
        rw [List.foldl_cons]
        cases hmid : (rest.take (sequenceLength b - 2)).takeWhile isContinuation with
        | nil =>
            rw [hmid] at hmore
            have hlead := htwo b hmore.symm
            rw [List.foldl_nil]
            omega
        | cons d more =>
            rw [hmid, List.length_cons, List.length_cons] at hmore
            have hfirst := two_le_of_secondFits (by omega) hfits
            rw [List.foldl_cons]
            refine le_trans ?_ (le_foldl_continuations more _)
            omega
      · rw [continuations, if_neg hfits, List.length_nil] at hmore
        omega

/-- A byte that is not ASCII never begins an ASCII character, but for the one `Char.ofNat` has
for no character at all. -/
theorem decodeFirst_not_ascii {b : Byte} (h : ¬ b < 0x80) (rest : List Byte) :
    (decodeFirst b rest).1.toNat = 0 ∨ 0x80 ≤ (decodeFirst b rest).1.toNat := by
  have hofNat : ∀ n, 0x80 ≤ n → (Char.ofNat n).toNat = 0 ∨ 0x80 ≤ (Char.ofNat n).toNat := by
    intro n hn
    by_cases hvalid : n.isValidChar
    · rw [Char.toNat_ofNat, if_pos hvalid]
      exact .inr hn
    · rw [Char.toNat_ofNat, if_neg hvalid]
      exact .inl rfl
  have hone : ∀ b : Byte, ¬ b < 0x80 → sequenceLength b ≠ 1 := by decide
  have hreplacement : 0x80 ≤ replacementCharacter.toNat := by decide
  rw [decodeFirst, if_neg (hone b h)]
  by_cases hzero : sequenceLength b = 0
  · rw [if_pos hzero]
    exact .inr hreplacement
  · rw [if_neg hzero]
    dsimp only
    by_cases hmore : (continuations b rest).length + 1 = sequenceLength b
    · rw [if_pos hmore]
      have hlen : 1 < sequenceLength b := by
        have := hone b h
        omega
      exact hofNat _ (le_foldl_of_complete hlen hmore)
    · rw [if_neg hmore]
      exact .inr hreplacement

/-- The first character of bytes that do not start with ASCII. -/
theorem fromUtf8Lossy_not_ascii {b : Byte} (h : ¬ b < 0x80) (rest : List Byte) :
    ∃ c cs, fromUtf8Lossy (b :: rest) = c :: cs ∧ (c.toNat = 0 ∨ 0x80 ≤ c.toNat) :=
  ⟨_, _, rfl, decodeFirst_not_ascii h rest⟩

end Hosted

end Playground
