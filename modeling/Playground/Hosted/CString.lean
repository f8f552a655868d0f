/-
Strings as the library reads them: bytes up to a zero byte, and no further than one
`printf` call may print.
-/
import Playground.Hosted.Stub
import Playground.Machine.Bytewise

namespace Playground

namespace Hosted

/-- The most one `printf` call may print. -/
def maxPrintfCallBytes : Nat := 1024 * 1024

/-- Up to `max` bytes of the string at an address, stopping at its terminator. -/
def readCPrefix (mem : Memory) : Nat → Word → Except EmuError (List Byte)
  | 0, _ => .ok []
  | max + 1, addr => do
      let b ← mem.readU8 addr
      if b = 0 then return []
      else
        let rest ← readCPrefix mem max (addr + 1)
        return b :: rest

def unterminated (what : String) (addr : Word) : EmuError :=
  .runtimeError (what ++ ": the string at 0x" ++ hexText addr.toNat ++
    " has no terminating zero byte within 1 MiB. Declare strings with .asciz or .string (not " ++
    ".ascii), and check nothing wrote over the terminator")

/-- The string at an address, for the operation `what` names. -/
def readCString (mem : Memory) (addr : Word) (what : String) : Except EmuError (List Byte) := do
  let out ← readCPrefix mem maxPrintfCallBytes addr
  if out.length < maxPrintfCallBytes then return out
  else throw (unterminated what addr)

end Hosted

namespace Memory

/-- The string `s` with its terminator stands at `addr`. -/
structure HoldsString (m : Memory) (addr : Word) (s : List Byte) : Prop where
  holds : m.Holds (addr, s ++ [0])
  nonzero : ∀ b ∈ s, b ≠ 0

namespace HoldsString

variable {m : Memory} {addr : Word} {s : List Byte}

theorem head {b : Byte} (h : m.HoldsString addr (b :: s)) : m.readU8 addr = .ok b :=
  h.holds.head

theorem tail {b : Byte} (h : m.HoldsString addr (b :: s)) : m.HoldsString (addr + 1) s :=
  ⟨h.holds.tail, fun c hc => h.nonzero c (List.mem_cons_of_mem b hc)⟩

theorem stop (h : m.HoldsString addr []) : m.readU8 addr = .ok 0 := h.holds.head

/-- Byte `i` of the string is there. -/
theorem readU8 (h : m.HoldsString addr s) {i : Nat} {b : Byte} (hi : s[i]? = some b) :
    m.readU8 (addr + BitVec.ofNat 64 i) = .ok b := by
  apply h.holds i b
  rw [List.getElem?_append_left (List.getElem?_eq_some_iff.mp hi).1]
  exact hi

theorem terminator (h : m.HoldsString addr s) :
    m.readU8 (addr + BitVec.ofNat 64 s.length) = .ok 0 := by
  apply h.holds s.length 0
  simp

theorem drop (h : m.HoldsString addr s) {n : Nat} (hn : n ≤ s.length) :
    m.HoldsString (addr + BitVec.ofNat 64 n) (s.drop n) := by
  refine ⟨?_, fun b hb => h.nonzero b (List.mem_of_mem_drop hb)⟩
  have hdrop := h.holds.drop n
  rwa [List.drop_append_of_le_length hn] at hdrop

/-- A string is shorter than the address space. -/
theorem length_lt (h : m.HoldsString addr s) : s.length < 2 ^ 64 := by
  by_contra hlong
  have hstop := h.terminator
  have hplace : s.length - 2 ^ 64 < s.length := by omega
  obtain ⟨b, hb⟩ : ∃ b, s[s.length - 2 ^ 64]? = some b :=
    ⟨_, List.getElem?_eq_getElem hplace⟩
  have hread := h.readU8 hb
  have hwrap : BitVec.ofNat 64 (s.length - 2 ^ 64) = BitVec.ofNat 64 s.length := by
    apply BitVec.eq_of_toNat_eq
    rw [BitVec.toNat_ofNat, BitVec.toNat_ofNat]
    omega
  rw [hwrap, hstop] at hread
  exact h.nonzero b (List.mem_of_getElem? hb) (Except.ok.inj hread).symm

end HoldsString

end Memory

namespace Hosted

variable {m : Memory} {addr : Word} {s : List Byte}

theorem readCPrefix_of_holds (h : m.HoldsString addr s) (max : Nat) :
    readCPrefix m max addr = .ok (s.take max) := by
  induction s generalizing addr max with
  | nil =>
      cases max with
      | zero => rfl
      | succ max =>
          rw [readCPrefix, h.stop]
          rfl
  | cons b s ih =>
      cases max with
      | zero => rfl
      | succ max =>
          have hb : b ≠ 0 := h.nonzero b (by simp)
          rw [readCPrefix, h.head]
          simp only [bind, Except.bind, hb, ↓reduceIte, ih h.tail max]
          rfl

/-- A string that ends short of the bound is there to a larger bound too. -/
theorem readCPrefix_mono {max max' : Nat} (h : readCPrefix m max addr = .ok s)
    (hlen : s.length < max) (hmax : max ≤ max') : readCPrefix m max' addr = .ok s := by
  induction max generalizing addr s max' with
  | zero => exact absurd hlen (Nat.not_lt_zero _)
  | succ max ih =>
      cases max' with
      | zero => omega
      | succ max' =>
          obtain ⟨b, hb, h⟩ := bind_eq_ok h
          rw [readCPrefix, hb]
          show (if b = 0 then _ else _) = Except.ok s
          split at h
          · rename_i hzero
            rw [if_pos hzero]
            exact h
          · rename_i hzero
            obtain ⟨rest, hrest, h⟩ := bind_eq_ok h
            cases h
            rw [if_neg hzero, ih hrest (Nat.lt_of_succ_lt_succ hlen) (Nat.le_of_succ_le_succ hmax)]
            rfl

theorem readCString_of_holds (h : m.HoldsString addr s) (hlen : s.length < maxPrintfCallBytes)
    (what : String) : readCString m addr what = .ok s := by
  rw [readCString, readCPrefix_of_holds h, List.take_of_length_le hlen.le]
  simp only [bind, Except.bind, hlen, ↓reduceIte]
  rfl

theorem length_readCString {mem : Memory} {addr : Word} {what : String} {s : List Byte}
    (h : readCString mem addr what = .ok s) : s.length < maxPrintfCallBytes := by
  obtain ⟨out, -, h⟩ := bind_eq_ok h
  split at h
  · rename_i hlen
    cases h
    exact hlen
  · cases h

theorem readCString_of_long (h : m.HoldsString addr s) (hlen : maxPrintfCallBytes ≤ s.length)
    (what : String) : readCString m addr what = .error (unterminated what addr) := by
  rw [readCString, readCPrefix_of_holds h]
  have htake : ¬ (s.take maxPrintfCallBytes).length < maxPrintfCallBytes := by
    rw [List.length_take]
    omega
  simp only [bind, Except.bind, htake, ↓reduceIte]
  rfl

end Hosted

end Playground
