/-
The loads the linker writes itself: the words of LDR (literal) and of a load with a scaled
offset, what they decode to, and what running them does.
-/
import Playground.Assembler.LoadStore
import Playground.Isa.Platform
import Playground.Frontend.ImageMemory

namespace Playground

open Fields (bits)

/-- The access size of a SIMD&FP register's view. -/
def Assembler.FpWidth.memSize : Assembler.FpWidth → MemSize
  | .b => .b
  | .h => .h
  | .s => .w
  | .d => .x
  | .q => .q

namespace Decode

variable {V : Type}

/-- Loads and stores have bit 27 set and bit 25 clear; the system words do not. -/
theorem decode_ldst (vec : VectorDecoder V) {w : BitVec 32} (h27 : bits w 27 27 = 1)
    (h25 : bits w 25 25 = 0) : decode vec w = decodeLdstGroup w vec := by
  have hbit : w.getLsbD 27 = true := by
    simp only [bits] at h27
    rw [BitVec.getLsbD, Nat.testBit_eq_decide_div_mod_eq]
    simpa using h27
  have hnop : w ≠ 0xD503201F := by
    rintro rfl
    simp at hbit
  have hmask : ∀ mask c : BitVec 32, mask.getLsbD 27 = true → c.getLsbD 27 = false →
      w &&& mask ≠ c := by
    rintro mask c hm hc rfl
    rw [BitVec.getLsbD_and, hbit, hm] at hc
    exact absurd hc (by decide)
  have hclass : bits w 28 25 = 4 ∨ bits w 28 25 = 6 ∨ bits w 28 25 = 12 ∨ bits w 28 25 = 14 := by
    simp only [bits] at h27 h25 ⊢
    omega
  unfold decode
  rw [if_neg hnop, if_neg (hmask _ _ (by decide) (by decide)),
    if_neg (hmask _ _ (by decide) (by decide))]
  rcases hclass with h | h | h | h <;> rw [h] <;> rfl


theorem ldrLiteral_fields {sf : Bool} {rt : Nat} {d : Int} {word : BitVec 32}
    (h : encodeLdrLiteral sf rt d = .ok word) :
    rt ≤ 31 ∧ d % 4 = 0 ∧ -2 ^ 18 ≤ d / 4 ∧ d / 4 < 2 ^ 18 ∧
      word = Fields.word 32
        [(sf.toNat, 30), (0b011000, 24), ((d / 4 % 2 ^ 19).toNat, 5), (rt, 0)] := by
  unfold encodeLdrLiteral at h
  split at h
  · cases h
  · rename_i hrt
    split at h
    · cases h
    · rename_i haligned
      simp only at h
      split at h
      · cases h
      · rename_i hrange
        cases h
        have hmod : (BitVec.ofInt 32 (d / 4) &&& 0x7FFFF) =
            BitVec.ofNat 32 (d / 4 % 2 ^ 19).toNat := by
          apply BitVec.eq_of_toNat_eq
          have hmask : (0x7FFFF : BitVec 32).toNat = 2 ^ 19 - 1 := rfl
          rw [BitVec.toNat_and, hmask, Nat.and_two_pow_sub_one_eq_mod, BitVec.toNat_ofInt,
            BitVec.toNat_ofNat]
          omega
        have hreg : (BitVec.ofNat 32 rt &&& 0x1F) = BitVec.ofNat 32 rt := by
          apply BitVec.eq_of_toNat_eq
          have hmask : (0x1F : BitVec 32).toNat = 2 ^ 5 - 1 := rfl
          rw [BitVec.toNat_and, hmask, Nat.and_two_pow_sub_one_eq_mod, BitVec.toNat_ofNat]
          omega
        refine ⟨by omega, by omega, by omega, by omega, ?_⟩
        rw [hmod, hreg]
        have hsf : ((if sf then 0x40000000 else 0 : Nat) : BitVec 32) =
            BitVec.ofNat 32 sf.toNat <<< 30 := by
          cases sf <;> decide
        have hop : ((0x18000000 : Nat) : BitVec 32) = BitVec.ofNat 32 0b011000 <<< 24 := by decide
        have hlast : BitVec.ofNat 32 rt = BitVec.ofNat 32 rt <<< 0 ||| 0 := by simp
        rw [hsf, hop, hlast]
        simp only [Fields.word]
        generalize BitVec.ofNat 32 0b011000 <<< 24 = a
        generalize BitVec.ofNat 32 sf.toNat <<< 30 = b
        generalize BitVec.ofNat 32 (d / 4 % 2 ^ 19).toNat <<< 5 = c
        rw [BitVec.or_comm a b, BitVec.or_assoc, BitVec.or_assoc]

theorem decode_ldrLiteral (vec : VectorDecoder V) {sf : Bool} {rt : Nat} {d : Int}
    {word : BitVec 32} (h : encodeLdrLiteral sf rt d = .ok word) :
    decode vec word = .ok (.ldrLiteral sf rt (BitVec.ofInt 64 d)) := by
  obtain ⟨hrt, haligned, hlo, hhi, rfl⟩ := ldrLiteral_fields h
  have himm : (d / 4 % 2 ^ 19).toNat < 2 ^ 19 := by omega
  have hfits : Fields.Fits 32
      [(sf.toNat, 30), (0b011000, 24), ((d / 4 % 2 ^ 19).toNat, 5), (rt, 0)] := by
    refine ⟨by decide, ?_, by decide, by decide, by decide, by omega, by decide, by omega, trivial⟩
    cases sf <;> decide
  have htop : bits (Fields.word 32
      [(sf.toNat, 30), (0b011000, 24), ((d / 4 % 2 ^ 19).toNat, 5), (rt, 0)]) 31 24 =
      sf.toNat * 64 + 24 := by
    rw [Fields.bits_word hfits]
    simp only [Fields.total]
    cases sf <;> simp <;> omega
  have hbits : ∀ hi lo, bits (Fields.word 32
      [(sf.toNat, 30), (0b011000, 24), ((d / 4 % 2 ^ 19).toNat, 5), (rt, 0)]) hi lo =
      (sf.toNat * 2 ^ 30 + (24 * 2 ^ 24 + ((d / 4 % 2 ^ 19).toNat * 2 ^ 5 + rt))) / 2 ^ lo %
        2 ^ (hi + 1 - lo) := by
    intro hi lo
    rw [Fields.bits_word hfits]
    simp [Fields.total]
  have hsf : sf.toNat < 2 := Bool.toNat_lt sf
  generalize Fields.word 32
      [(sf.toNat, 30), (0b011000, 24), ((d / 4 % 2 ^ 19).toNat, 5), (rt, 0)] = w at htop hbits ⊢
  rw [decode_ldst vec (by rw [hbits]; omega) (by rw [hbits]; omega)]
  have hclass : w &&& 0x3B000000 = 0x18000000 := by
    apply (Fields.and_eq_iff_bits w (show 24 < 32 by decide) (show 0x3B < 2 ^ 8 by decide)
      (show 0x18 < 2 ^ 8 by decide)).mpr
    rw [htop]
    cases sf <;> decide
  have hvector : bit w 26 = 0 := by
    rw [bit, hbits]
    omega
  have hopc : bits w 31 30 = sf.toNat := by
    rw [hbits]
    omega
  have hrt' : Decode.rt w = rt := by
    rw [Decode.rt, hbits]
    omega
  have himm' : bits w 23 5 = (d / 4 % 2 ^ 19).toNat := by
    rw [hbits]
    omega
  simp only [decodeLdstGroup, hclass, if_true, decodeLdrLiteral, hvector, hopc, hrt', himm']
  have hoffset : signExtend (d / 4 % 2 ^ 19).toNat 19 * 4 = BitVec.ofInt 64 d := by
    rw [signExtend]
    apply BitVec.eq_of_toInt_eq
    have himm19 : (BitVec.ofNat 19 (d / 4 % 2 ^ 19).toNat).toInt = d / 4 := by
      rw [BitVec.toInt_ofNat', Int.toNat_of_nonneg (by omega), Int.bmod_def]
      omega
    rw [BitVec.toInt_mul, BitVec.toInt_signExtend_of_le (by decide), himm19, BitVec.toInt_ofInt]
    congr 1
    have hfour : (4 : BitVec 64).toInt = 4 := by decide
    rw [hfour]
    omega
  rw [hoffset]
  cases sf <;> simp


/-- Which load or store class a word is in is a matter of its top byte. -/
theorem decodeLdstGroup_single (vec : VectorDecoder V) {w : BitVec 32} {top : Nat}
    (htop : bits w 31 24 = top) (hliteral : top &&& 0x3B ≠ 0x18) (hpair : top &&& 0x3A ≠ 0x28)
    (hstructure : top &&& 0xBE ≠ 0x0C) : decodeLdstGroup w vec = decodeLdstSingle w := by
  have hne : ∀ m c, m < 2 ^ 8 → c < 2 ^ 8 → top &&& m ≠ c →
      w &&& BitVec.ofNat 32 (m * 2 ^ 24) ≠ BitVec.ofNat 32 (c * 2 ^ 24) := by
    intro m c hm hc hne heq
    apply hne
    rw [← htop]
    exact (Fields.and_eq_iff_bits w (show 24 < 32 by decide) hm hc).mp heq
  have hliteral' : w &&& 0x3B000000 ≠ 0x18000000 :=
    hne 0x3B 0x18 (by decide) (by decide) hliteral
  have hpair' : w &&& 0x3A000000 ≠ 0x28000000 := hne 0x3A 0x28 (by decide) (by decide) hpair
  have hstructure' : w &&& 0xBE000000 ≠ 0x0C000000 :=
    hne 0xBE 0x0C (by decide) (by decide) hstructure
  rw [decodeLdstGroup, if_neg hliteral', if_neg hpair', if_neg hstructure']

open Assembler in
theorem decode_ldstScaledWord (vec : VectorDecoder V) {size imm12 rn rt : Nat} (hsize : size < 4)
    (himm : imm12 < 2 ^ 12) (hrn : rn < 32) (hrt : rt < 32) :
    decode vec (ldstScaledWord size 1 imm12 rn rt) = .ok (.ldSt .ldr rt rn
      (.immediate (BitVec.ofNat 64 (imm12 * (MemSize.fromSizeField size).bytes)))
      (.fromSizeField size) .signedOffset) := by
  have hfits : Fields.Fits 32
      [(size, 30), (0b111001, 24), (1, 22), (imm12, 10), (rn, 5), (rt, 0)] := by
    refine ⟨by decide, by omega, by decide, by decide, by decide, by decide, by decide, by omega,
      by decide, by omega, by decide, by omega, trivial⟩
  have hbits : ∀ hi lo, bits (ldstScaledWord size 1 imm12 rn rt) hi lo =
      (size * 2 ^ 30 + (57 * 2 ^ 24 + (2 ^ 22 + (imm12 * 2 ^ 10 + (rn * 2 ^ 5 + rt))))) / 2 ^ lo %
        2 ^ (hi + 1 - lo) := by
    intro hi lo
    rw [ldstScaledWord, Fields.bits_word hfits]
    simp [Fields.total]
  generalize ldstScaledWord size 1 imm12 rn rt = w at hbits ⊢
  have htop : bits w 31 24 = size * 64 + 57 := by
    rw [hbits]
    omega
  rw [decode_ldst vec (by rw [hbits]; omega) (by rw [hbits]; omega),
    decodeLdstGroup_single vec htop (by interval_cases size <;> decide)
      (by interval_cases size <;> decide) (by interval_cases size <;> decide)]
  have hvector : bit w 26 = 0 := by
    rw [bit, hbits]
    omega
  have hsizeField : bits w 31 30 = size := by
    rw [hbits]
    omega
  have hopc : bits w 23 22 = 1 := by
    rw [hbits]
    omega
  have hscaled : bits w 25 24 = 0b01 ∧ bits w 29 28 = 0b11 := by
    rw [hbits, hbits]
    omega
  have himm' : bits w 21 10 = imm12 := by
    rw [hbits]
    omega
  have hrn' : Decode.rn w = rn := by
    rw [Decode.rn, hbits]
    omega
  have hrt' : Decode.rt w = rt := by
    rw [Decode.rt, hbits]
    omega
  simp [decodeLdstSingle, hvector, hsizeField, hopc, hscaled, decodeLdstOp, scaledOffset, himm',
    hrn', hrt']

open Assembler in
theorem decode_fpScaledWord (vec : VectorDecoder V) (width : FpWidth) {imm12 rn rt : Nat}
    (himm : imm12 < 2 ^ 12) (hrn : rn < 32) (hrt : rt < 32) :
    decode vec (fpScaledWord width.sizeField (width.opcHigh * 2 + 1) imm12 rn rt) =
      .ok (.fpLdSt true rt rn (.immediate (BitVec.ofNat 64 (imm12 * width.memSize.bytes)))
        width.memSize .signedOffset false) := by
  have hsize : width.sizeField < 4 := by cases width <;> decide
  have hopcLt : width.opcHigh * 2 + 1 < 4 := by cases width <;> decide
  have hfits : Fields.Fits 32 [(width.sizeField, 30), (0b1111, 26), (0b01, 24),
      (width.opcHigh * 2 + 1, 22), (imm12, 10), (rn, 5), (rt, 0)] := by
    refine ⟨by decide, by omega, by decide, by decide, by decide, by decide, by decide, by omega,
      by decide, by omega, by decide, by omega, by decide, by omega, trivial⟩
  have hbits : ∀ hi lo, bits (fpScaledWord width.sizeField (width.opcHigh * 2 + 1) imm12 rn rt)
      hi lo = (width.sizeField * 2 ^ 30 + (15 * 2 ^ 26 + (2 ^ 24 +
        ((width.opcHigh * 2 + 1) * 2 ^ 22 + (imm12 * 2 ^ 10 + (rn * 2 ^ 5 + rt)))))) / 2 ^ lo %
        2 ^ (hi + 1 - lo) := by
    intro hi lo
    rw [fpScaledWord, Fields.bits_word hfits]
    simp [Fields.total]
  generalize fpScaledWord width.sizeField (width.opcHigh * 2 + 1) imm12 rn rt = w at hbits ⊢
  have htop : bits w 31 24 = width.sizeField * 64 + 61 := by
    rw [hbits]
    omega
  rw [decode_ldst vec (by rw [hbits]; omega) (by rw [hbits]; omega),
    decodeLdstGroup_single vec htop (by cases width <;> decide)
      (by cases width <;> decide) (by cases width <;> decide)]
  have hvector : bit w 26 = 1 := by
    rw [bit, hbits]
    omega
  have hsizeField : bits w 31 30 = width.sizeField := by
    rw [hbits]
    omega
  have hopc : bits w 23 22 = width.opcHigh * 2 + 1 := by
    rw [hbits]
    omega
  have hscaled : bits w 25 24 = 0b01 := by
    rw [hbits]
    omega
  have himm' : bits w 21 10 = imm12 := by
    rw [hbits]
    omega
  have hrn' : Decode.rn w = rn := by
    rw [Decode.rn, hbits]
    omega
  have hrt' : Decode.rt w = rt := by
    rw [Decode.rt, hbits]
    omega
  simp only [decodeLdstSingle, hvector, if_true, hsizeField, decodeFpLdstSingle, hopc, hscaled,
    scaledOffset, himm', hrn', hrt']
  cases width <;> rfl

end Decode

namespace Execute

open Memory (readLe_lt readLe_one)

variable {V : Type} {vector : V → Exec ExecResult} {m : Machine} {rt rn : Nat}

theorem run_readSized {size : MemSize} (hsize : size ≠ .q) {addr : Word} {v : Nat}
    (h : m.mem.readLe addr size.bytes = .ok v) :
    (readSized size addr).run m = (m, .ok (BitVec.ofNat 64 v)) := by
  have hlt := readLe_lt h
  have hwiden : ∀ n, v < 2 ^ n → n ≤ 64 →
      (BitVec.ofNat n v).setWidth 64 = BitVec.ofNat 64 v := by
    intro n hv hn
    apply BitVec.eq_of_toNat_eq
    rw [BitVec.toNat_setWidth, BitVec.toNat_ofNat, BitVec.toNat_ofNat, Nat.mod_eq_of_lt hv]
  cases size with
  | b =>
      have hread : m.mem.readU8 addr = .ok (BitVec.ofNat 8 v) := by
        have h : m.mem.readLe addr 1 = .ok v := h
        rw [readLe_one] at h
        cases hbyte : m.mem.readU8 addr with
        | error e => simp [hbyte, Except.map] at h
        | ok byte =>
            obtain rfl : byte.toNat = v := by simpa [hbyte, Except.map] using h
            simp
      rw [← hwiden 8 hlt (by decide)]
      exact Exec.run_map_ok _ (Exec.run_attempt _ m |>.trans (by rw [hread]))
  | h =>
      have hread : m.mem.readU16 addr = .ok (BitVec.ofNat 16 v) := congrArg (Except.map _) h
      rw [← hwiden 16 hlt (by decide)]
      exact Exec.run_map_ok _ (Exec.run_attempt _ m |>.trans (by rw [hread]))
  | w =>
      have hread : m.mem.readU32 addr = .ok (BitVec.ofNat 32 v) := congrArg (Except.map _) h
      rw [← hwiden 32 hlt (by decide)]
      exact Exec.run_map_ok _ (Exec.run_attempt _ m |>.trans (by rw [hread]))
  | x =>
      have hread : m.mem.readU64 addr = .ok (BitVec.ofNat 64 v) := congrArg (Except.map _) h
      exact Exec.run_attempt _ m |>.trans (by rw [hread])
  | q => exact absurd rfl hsize

theorem run_ldrLiteral {sf : Bool} {offset : Word} {v : Nat}
    (h : m.mem.readLe (m.regs.pc + offset) (if sf then 8 else 4) = .ok v) :
    (execute vector (.ldrLiteral sf rt offset) : Exec ExecResult).run m =
      ({ m with regs := m.regs.writeGpr rt sf (BitVec.ofNat 64 v) }, .ok .advance) := by
  have hread : (readSized (if sf then .x else .w) (m.regs.pc + offset)).run m =
      (m, .ok (BitVec.ofNat 64 v)) := by
    apply run_readSized
    · cases sf <;> decide
    · cases sf <;> exact h
  have hpc : Exec.readPc.run m = (m, .ok m.regs.pc) := rfl
  show (execLdrLiteral sf rt offset).run m = _
  unfold execLdrLiteral
  rw [Exec.run_bind_ok hpc, Exec.run_bind_ok hread,
    Exec.run_bind_ok (Exec.run_writeGpr rt sf _ m)]
  rfl

theorem run_baseAddress {next : Word → Exec ExecResult} (hrn : rn < 31) :
    (do checkSpAlignment rn
        let base ← Exec.readGprOrSp rn true
        next base).run m =
      (next (m.regs.gprValue rn true)).run
        { m with regs := (m.regs.readGpr rn true).1 } := by
  have hnot : ¬ 31 ≤ rn := by omega
  have hcheck : (checkSpAlignment rn).run m = (m, .ok ()) := by
    unfold checkSpAlignment
    rw [if_neg hnot]
    rfl
  have hread : (Exec.readGprOrSp rn true).run m =
      ({ m with regs := (m.regs.readGpr rn true).1 }, .ok (m.regs.gprValue rn true)) := by
    unfold Exec.readGprOrSp
    rw [if_neg hnot]
    rfl
  rw [Exec.run_bind_ok hcheck, Exec.run_bind_ok hread]

theorem run_checkGuestAddress_ok {addr : Word} {access : MemAccess}
    (h : nullPageLimit ≤ addr.toNat) :
    (checkGuestAddress addr access).run m = (m, .ok ()) := by
  unfold checkGuestAddress
  rw [if_neg (by omega)]
  rfl

/-- A load through `[Xn]`. -/
theorem run_ldr {size : MemSize} (hsize : size ≠ .q) {v : Nat} (hrn : rn < 31)
    (hguest : nullPageLimit ≤ (m.regs.gprValue rn true).toNat)
    (h : m.mem.readLe (m.regs.gprValue rn true) size.bytes = .ok v) :
    (execute vector (.ldSt .ldr rt rn (.immediate 0) size .signedOffset) : Exec ExecResult).run m =
      ({ m with regs := (m.regs.readGpr rn true).1.writeGpr rt (size = .x) (BitVec.ofNat 64 v) },
        .ok .advance) := by
  show (execLdst .ldr rt rn (.immediate 0) size .signedOffset).run m = _
  unfold execLdst
  rw [run_baseAddress hrn]
  generalize m.regs.gprValue rn true = base at hguest h
  have hoffset : ∀ m, (resolveLdstOffset (.immediate 0)).run m = (m, .ok 0) := fun _ => rfl
  rw [Exec.run_bind_ok (hoffset _)]
  have hzero : base + (0 : Word) = base := BitVec.add_zero base
  simp only [applyIndexMode, hzero]
  have hread : (readSized size base).run { m with regs := (m.regs.readGpr rn true).1 } =
      ({ m with regs := (m.regs.readGpr rn true).1 }, .ok (BitVec.ofNat 64 v)) :=
    run_readSized hsize h
  rw [Exec.run_bind_ok (run_checkGuestAddress_ok hguest), Exec.run_bind_ok hread]
  rfl

/-- Loading a SIMD&FP register sets the whole of it to what was read. -/
theorem run_loadFpr (width : Assembler.FpWidth) {ft v : Nat} {addr : Word}
    (h : m.mem.readLe addr width.memSize.bytes = .ok v) :
    (loadFpr ft width.memSize addr).run m =
      ({ m with regs := m.regs.storeFpr ft true (BitVec.ofNat 128 v) }, .ok ()) := by
  have hlt := readLe_lt h
  have hnarrow : ∀ n, v < 2 ^ n → n ≤ 64 →
      ((BitVec.ofNat 64 v).setWidth n).setWidth 128 = BitVec.ofNat 128 v := by
    intro n hv hn
    have hpow : (2 : Nat) ^ n ≤ 2 ^ 64 := Nat.pow_le_pow_right (by decide) hn
    apply BitVec.eq_of_toNat_eq
    rw [BitVec.toNat_setWidth, BitVec.toNat_setWidth, BitVec.toNat_ofNat, BitVec.toNat_ofNat,
      Nat.mod_eq_of_lt (Nat.lt_of_lt_of_le hv hpow), Nat.mod_eq_of_lt hv]
  have hscalar : ∀ size : MemSize, size ≠ .q → m.mem.readLe addr size.bytes = .ok v →
      (do Exec.writeFprScalar ft size.bytes (← readSized size addr) : Exec Unit).run m =
        ({ m with regs := m.regs.writeFprScalar ft size.bytes (BitVec.ofNat 64 v) }, .ok ()) := by
    intro size hsize h
    rw [Exec.run_bind_ok (run_readSized hsize h)]
    rfl
  cases width with
  | b =>
      rw [← hnarrow 8 hlt (by decide)]
      exact hscalar .b (by decide) h
  | h =>
      rw [← hnarrow 16 hlt (by decide)]
      exact hscalar .h (by decide) h
  | s =>
      rw [← hnarrow 32 hlt (by decide)]
      exact hscalar .w (by decide) h
  | d =>
      have hwide := hnarrow 64 hlt (by decide)
      rw [BitVec.setWidth_eq] at hwide
      rw [← hwide]
      exact hscalar .x (by decide) h
  | q =>
      have hread : (Exec.readU128 addr).run m = (m, .ok (BitVec.ofNat 128 v)) :=
        congrArg (Prod.mk m) (congrArg (Except.map _) h)
      show (do Exec.writeFprQ ft (← Exec.readU128 addr) : Exec Unit).run m = _
      rw [Exec.run_bind_ok hread]
      rfl

/-- A SIMD&FP load through `[Xn]`: the whole register is what was read. -/
theorem run_fpLdr (width : Assembler.FpWidth) {ft v : Nat} (hrn : rn < 31)
    (hguest : nullPageLimit ≤ (m.regs.gprValue rn true).toNat)
    (h : m.mem.readLe (m.regs.gprValue rn true) width.memSize.bytes = .ok v) :
    (execute vector (.fpLdSt true ft rn (.immediate 0) width.memSize .signedOffset false) :
        Exec ExecResult).run m =
      ({ m with regs := (m.regs.readGpr rn true).1.storeFpr ft true (BitVec.ofNat 128 v) },
        .ok .advance) := by
  show (execFpLdst true ft rn (.immediate 0) width.memSize .signedOffset).run m = _
  unfold execFpLdst
  rw [run_baseAddress hrn]
  generalize m.regs.gprValue rn true = base at hguest h
  have hoffset : ∀ m, (resolveLdstOffset (.immediate 0)).run m = (m, .ok 0) := fun _ => rfl
  rw [Exec.run_bind_ok (hoffset _)]
  have hzero : base + (0 : Word) = base := BitVec.add_zero base
  simp only [applyIndexMode, hzero, if_true]
  have hload : (loadFpr ft width.memSize base).run { m with regs := (m.regs.readGpr rn true).1 } =
      ({ m with regs := (m.regs.readGpr rn true).1.storeFpr ft true (BitVec.ofNat 128 v) },
        .ok ()) := run_loadFpr width h
  rw [Exec.run_bind_ok (run_checkGuestAddress_ok hguest), Exec.run_bind_ok hload]
  rfl

end Execute

end Playground
