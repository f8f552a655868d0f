/-
Seeking, writing and reading compose, except that a write of no bytes past the end of a file
makes the file longer.
-/
import Playground.Hosted.Files
import Playground.Hosted.PrintfCalls

namespace Playground

namespace Hosted

open Exec Memory

/-- A call of `lseek` answered `o`. -/
def Seeks (side side' : HostSide) (fd o : Nat) : Prop :=
  ∃ (closed : Bool) (m m' : Machine), descriptor (m.regs.gprValue 0 true) = fd ∧
    sysLseek.run side closed m = (m', side', .ok .continue) ∧
    m'.regs.gprValue 0 true = BitVec.ofNat 64 o ∧ o < 2 ^ 63

/-- A call wrote the bytes to the descriptor, or to its stream, and reported all of them. -/
inductive WritesAll (side side' : HostSide) (fd : Nat) (bytes : List Byte) : Prop
  | write (closed : Bool) (m m' : Machine) (hfd : descriptor (m.regs.gprValue 0 true) = fd)
      (hbytes : m.mem.Holds (m.regs.gprValue 1 true, bytes))
      (hcount : (m.regs.gprValue 2 true).toNat = bytes.length)
      (hrun : sysWrite.run side closed m = (m', side', .ok .continue))
      (hreport : (m'.regs.gprValue 0 true).toInt = bytes.length)
  | fprintf (closed : Bool) (m m' : Machine) (hstream : m.regs.gprValue 0 true = handleOf fd)
      (hbytes : ((formatInto (m.regs.gprValue 1 true) 2 "fprintf's format string").run side closed
        m).2.2 = .ok bytes)
      (hrun : fprintf.run side closed m = (m', side', .ok .continue))
      (hreport : (m'.regs.gprValue 0 true).toInt = bytes.length)
  | fputs (closed : Bool) (m m' : Machine) (hstream : m.regs.gprValue 1 true = handleOf fd)
      (hbytes : m.mem.HoldsString (m.regs.gprValue 0 true) bytes)
      (hrun : fputs.run side closed m = (m', side', .ok .continue))
      (hreport : (m'.regs.gprValue 0 true).toInt = bytes.length)
  | putc (closed : Bool) (m m' : Machine) (byte : Byte)
      (hstream : m.regs.gprValue 1 true = handleOf fd)
      (hbyte : (m.regs.gprValue 0 true).setWidth 8 = byte) (hbytes : bytes = [byte])
      (hrun : putc.run side closed m = (m', side', .ok .continue))
      (hreport : m'.regs.gprValue 0 true = byte.setWidth 64)
  | fwrite (closed : Bool) (m m' : Machine) (hstream : m.regs.gprValue 3 true = handleOf fd)
      (hbytes : m.mem.Holds (m.regs.gprValue 0 true, bytes))
      (hcount : (m.regs.gprValue 1 true).toNat * (m.regs.gprValue 2 true).toNat = bytes.length)
      (hrun : fwrite.run side closed m = (m', side', .ok .continue))
      (hreport : (m'.regs.gprValue 0 true).toNat * (m.regs.gprValue 1 true).toNat = bytes.length)

/-- What a write of the bytes at an offset leaves, and a seek back and a read find. -/
structure Composes (side side' : HostSide) (fd : Nat) (path : String) (o : Nat)
    (bytes : List Byte) : Prop where
  length : (fileData side' path).length =
    if bytes = [] then (fileData side path).length
    else max (fileData side path).length (o + bytes.length)
  outside : ∀ i < (fileData side path).length, i < o ∨ o + bytes.length ≤ i →
    (fileData side' path)[i]? = (fileData side path)[i]?
  gap : ∀ i, (fileData side path).length ≤ i → i < o → i < (fileData side' path).length →
    (fileData side' path)[i]? = some 0
  offset : ∃ file, openFile side' fd = some file ∧ file.path = path ∧
    file.offset = o + bytes.length
  readBack : ∀ (closed : Bool) (m : Machine), descriptor (m.regs.gprValue 0 true) = fd →
    m.regs.gprValue 1 true = BitVec.ofNat 64 o → (m.regs.gprValue 2 true).setWidth 32 = 0#32 →
    ∃ m₁ side₁, sysLseek.run side' closed m = (m₁, side₁, .ok .continue) ∧
      m₁.regs.gprValue 0 true = BitVec.ofNat 64 o ∧
      ∀ (closed' : Bool) (m₂ m₃ : Machine) (side₂ : HostSide),
        descriptor (m₂.regs.gprValue 0 true) = fd →
        (m₂.regs.gprValue 2 true).toNat = bytes.length →
        sysRead.run side₁ closed' m₂ = (m₃, side₂, .ok .continue) →
        (m₃.regs.gprValue 0 true).toNat = bytes.length ∧
          Written m₂.mem (m₂.regs.gprValue 1 true) bytes m₃.mem ∧
          ∃ file, openFile side₂ fd = some file ∧ file.path = path ∧
            file.offset = o + bytes.length

section Seek

variable {side side' : HostSide} {fd o : Nat} {file : OpenFile}

def moved (side : HostSide) (fd : Nat) (file : OpenFile) (o : Nat) : HostSide :=
  { side with openFiles := Tables.set fd { file with offset := o } side.openFiles }

theorem openFile_moved : openFile (moved side fd file o) fd = some { file with offset := o } :=
  Tables.lookup_set_self fd _ side.openFiles

/-- An answer that is no error number. -/
theorem toInt_of_ofInt {n : Int} (h : BitVec.ofInt 64 n = BitVec.ofNat 64 o) (ho : o < 2 ^ 63)
    (hlow : -2 ^ 63 ≤ n) (hhigh : n < 2 ^ 63) : n = o := by
  have heq := congrArg BitVec.toInt h
  rw [BitVec.toInt_ofInt, BitVec.toInt_eq_toNat_bmod, BitVec.toNat_ofNat,
    Nat.mod_eq_of_lt (by omega)] at heq
  rw [Int.bmod_eq_of_le (by omega) (by omega), Int.bmod_eq_of_le (by omega) (by omega)] at heq
  exact heq

theorem run_sysLseek (closed : Bool) (m : Machine) :
    ∃ m', sysLseek.run side closed m =
        (m', (seekTo (descriptor (m.regs.gprValue 0 true)) (m.regs.gprValue 1 true)
          ((m.regs.gprValue 2 true).setWidth 32).toNat side).1, .ok .continue) ∧
      m'.regs.gprValue 0 true =
        BitVec.ofInt 64 (seekTo (descriptor (m.regs.gprValue 0 true)) (m.regs.gprValue 1 true)
          ((m.regs.gprValue 2 true).setWidth 32).toNat side).2 := by
  rw [sysLseek, run_bind_readGpr, run_bind_readGpr, run_bind_readGpr]
  simp only [gprValue_readGpr]
  rw [Stub.run_bind_ok (Stub.run_update _ _ _ _), Stub.run_liftM]
  exact ⟨_, rfl, gprValue_answer _ _⟩

theorem seekTo_cases (hopen : openFile side fd = some file) (offset : Word) (whence : Nat) :
    (∃ o ≤ maxVfsFileBytes, seekTo fd offset whence side = (moved side fd file o, (o : Int))) ∨
      seekTo fd offset whence side = (side, eInval) := by
  unfold seekTo
  rw [hopen]
  simp only
  split
  · exact .inr rfl
  · rename_i target _
    split
    · exact .inr rfl
    · rename_i hin
      left
      rw [not_or, Int.not_lt, Nat.not_lt] at hin
      refine ⟨target.toNat, hin.2, ?_⟩
      rw [Int.toNat_of_nonneg hin.1]
      rfl

theorem Seeks.moved (h : Seeks side side' fd o) (hopen : openFile side fd = some file) :
    o ≤ maxVfsFileBytes ∧ side' = Hosted.moved side fd file o := by
  obtain ⟨closed, m, m', hfd, hrun, hx0, ho⟩ := h
  obtain ⟨m₁, hrun₁, hx0₁⟩ := @run_sysLseek side closed m
  rw [hrun₁, hfd] at hrun
  rw [hfd] at hx0₁
  cases hrun
  have hanswer := hx0₁.symm.trans hx0
  rcases seekTo_cases hopen (m.regs.gprValue 1 true)
    ((m.regs.gprValue 2 true).setWidth 32).toNat with ⟨o', ho', hseek⟩ | hseek
  · rw [hseek] at hanswer ⊢
    have hmax : maxVfsFileBytes = 4194304 := rfl
    have heq := toInt_of_ofInt hanswer ho (by omega) (by omega)
    obtain rfl : o' = o := by omega
    exact ⟨ho', rfl⟩
  · rw [hseek] at hanswer
    have heq := toInt_of_ofInt (n := -22) hanswer ho (by decide) (by decide)
    omega

end Seek

section Write

variable {side side' : HostSide} {fd : Nat} {file : OpenFile} {bytes : List Byte}

/-- The bytes fit in the file, and what they add to it in the files together. -/
def Fits (side : HostSide) (path : String) (o n : Nat) : Prop :=
  o + n ≤ maxVfsFileBytes ∧
    totalBytes side + (o + n - (fileData side path).length) ≤ maxVfsTotalBytes

/-- The side state with the bytes written at the offset of an open file. -/
def stored (side : HostSide) (fd : Nat) (file : OpenFile) (bytes : List Byte) : HostSide :=
  { side with
    vfs := Tables.set file.path (Splice.splice 0 (fileData side file.path) file.offset bytes)
      side.vfs
    openFiles := Tables.set fd { file with offset := file.offset + bytes.length }
      side.openFiles }

theorem fileData_stored : fileData (stored side fd file bytes) file.path =
    Splice.splice 0 (fileData side file.path) file.offset bytes :=
  congrArg (Option.getD · []) (Tables.lookup_set_self file.path _ side.vfs)

theorem openFile_stored : openFile (stored side fd file bytes) fd =
    some { file with offset := file.offset + bytes.length } :=
  Tables.lookup_set_self fd _ side.openFiles

/-- A write to a file is stored where it fits, and refused where it does not. -/
theorem writeToFd_cases {w : Word} (hw : descriptor w = fd) (hfd : 3 ≤ fd)
    (hopen : openFile side fd = some file) (hwritable : file.writable = true)
    (bytes : List Byte) :
    (Fits side file.path file.offset bytes.length ∧
      writeToFd w bytes side = (stored side fd file bytes, (bytes.length : Int))) ∨
    (¬ Fits side file.path file.offset bytes.length ∧
      ∃ n : Int, -100 ≤ n ∧ n < 0 ∧ writeToFd w bytes side = (side, n)) := by
  obtain ⟨path, offset, writable⟩ := file
  obtain rfl : writable = true := hwritable
  have hone : w ≠ 1 := by
    rintro rfl
    exact absurd (hw ▸ hfd) (by decide)
  have htwo : w ≠ 2 := by
    rintro rfl
    exact absurd (hw ▸ hfd) (by decide)
  unfold writeToFd Fits
  rw [if_neg hone, if_neg htwo, hw, hopen]
  simp only [not_true_eq_false, ↓reduceIte]
  split
  · right
    exact ⟨fun h => by omega, eFbig, by decide, by decide, rfl⟩
  · split
    · right
      exact ⟨fun h => by omega, eNospc, by decide, by decide, rfl⟩
    · left
      exact ⟨⟨by omega, by omega⟩, rfl⟩

theorem fdOf_handleOf (hfd : fd < 2 ^ 32) (hopen : openFile side fd = some file) :
    fdOf (handleOf fd) side = some fd := by
  have hnat : (handleOf fd).toNat = 4294909952 + fd * 16 := by
    rw [handleOf, BitVec.toNat_ofNat, fileHandleBase, fileHandleStride,
      Nat.mod_eq_of_lt (by omega)]
  unfold fdOf
  rw [hnat, fileHandleBase, fileHandleStride, if_neg (by omega)]
  have hrel : 4294909952 + fd * 16 - 4294909952 = fd * 16 := Nat.add_sub_cancel_left _ _
  have hmod : fd * 16 % 16 = 0 := Nat.mul_mod_left fd 16
  have hdiv : fd * 16 / 16 = fd := Nat.mul_div_left fd (by decide)
  simp only [hrel, hmod, hdiv, ne_eq, not_true_eq_false, ↓reduceIte, hopen, Option.isSome_some,
    if_neg (Nat.not_le.mpr hfd), ite_self]

theorem run_stream {handle : Word} (hhandle : handle = handleOf fd) (hfd : fd < 2 ^ 32)
    (hopen : openFile side fd = some file) (call : String) (closed : Bool) (m : Machine) :
    (stream call handle).run side closed m = (m, side, .ok (BitVec.ofNat 64 fd)) := by
  rw [stream, Stub.run_bind_ok (Stub.run_look _ _ _ _), hhandle, fdOf_handleOf hfd hopen]
  rfl

theorem descriptor_ofNat (hfd : fd < 2 ^ 32) : descriptor (BitVec.ofNat 64 fd) = fd := by
  unfold descriptor
  rw [BitVec.toNat_setWidth, BitVec.toNat_ofNat]
  omega

/-- The bytes are stored, or there were none and they were refused. -/
def Stores (side side' : HostSide) (fd : Nat) (file : OpenFile) (bytes : List Byte) : Prop :=
  ∃ call, (Fits side file.path file.offset bytes.length ∧
      side' = stored { side with callScratch := call } fd file bytes) ∨
    (¬ Fits side file.path file.offset bytes.length ∧ bytes = [] ∧
      side' = { side with callScratch := call })

theorem stores_of_report {w : Word} (hw : descriptor w = fd) (hfd : 3 ≤ fd)
    (hopen : openFile side fd = some file) (hwritable : file.writable = true)
    (call : CallRecord) {x0 : Word} {n : Int}
    (hwrite : writeToFd w bytes { side with callScratch := call } = (side', n))
    (hx0 : x0 = BitVec.ofInt 64 n ∨ x0 = BitVec.ofInt 64 (max n (-1)))
    (hreport : x0.toInt = bytes.length) : Stores side side' fd file bytes := by
  have hopen' : openFile { side with callScratch := call } fd = some file := hopen
  rcases writeToFd_cases hw hfd hopen' hwritable bytes with
    ⟨hfits, hstored⟩ | ⟨-, n', hlow, hneg, hrefused⟩
  · rw [hstored] at hwrite
    cases hwrite
    exact ⟨call, .inl ⟨hfits, rfl⟩⟩
  · rw [hrefused] at hwrite
    cases hwrite
    have hnegative : ∀ k : Int, -100 ≤ k → k < 0 → (BitVec.ofInt 64 k).toInt = k := by
      intro k hk hk'
      rw [BitVec.toInt_ofInt, Int.bmod_eq_of_le (by omega) (by omega)]
    rcases hx0 with rfl | rfl
    · rw [hnegative n hlow hneg] at hreport
      omega
    · rw [hnegative (max n (-1)) (by omega) (by omega)] at hreport
      omega

section Calls

variable {closed : Bool} {m m' : Machine}

theorem stores_write (hfd : 3 ≤ fd) (hopen : openFile side fd = some file)
    (hwritable : file.writable = true) (hdescriptor : descriptor (m.regs.gprValue 0 true) = fd)
    (hbytes : m.mem.Holds (m.regs.gprValue 1 true, bytes))
    (hcount : (m.regs.gprValue 2 true).toNat = bytes.length)
    (hrun : sysWrite.run side closed m = (m', side', .ok .continue))
    (hreport : (m'.regs.gprValue 0 true).toInt = bytes.length) :
    Stores side side' fd file bytes := by
  rw [sysWrite, run_bind_readGpr, run_bind_readGpr, run_bind_readGpr] at hrun
  simp only [gprValue_readGpr] at hrun
  rw [hcount, Stub.run_bind_ok (by rw [Stub.run_liftM, run_attempt, readEach_of_holds hbytes]),
    Stub.run_bind_ok (Stub.run_update _ _ _ _), Stub.run_liftM] at hrun
  cases hrun
  exact stores_of_report hdescriptor hfd hopen hwritable side.callScratch rfl
    (.inl (gprValue_answer _ _)) hreport

theorem stores_fprintf (hfd : 3 ≤ fd) (hfd' : fd < 2 ^ 32) (hopen : openFile side fd = some file)
    (hwritable : file.writable = true) (hstream : m.regs.gprValue 0 true = handleOf fd)
    (hbytes : ((formatInto (m.regs.gprValue 1 true) 2 "fprintf's format string").run side closed
      m).2.2 = .ok bytes)
    (hrun : fprintf.run side closed m = (m', side', .ok .continue))
    (hreport : (m'.regs.gprValue 0 true).toInt = bytes.length) :
    Stores side side' fd file bytes := by
  obtain ⟨-, -, fmt, kinds, hread, -, hagree⟩ := formatInto_renders (.refl m) hbytes
  have hview := (SameView.readGpr m 0 true).trans (.readGpr _ 1 true)
  have hprints := hagree m _ (m.regs.gprValue 1 true) 2 "fprintf's format string" side closed
    hview rfl hread rfl
  rw [fprintf, run_bind_readGpr, Stub.run_bind_ok (run_stream hstream hfd' hopen _ _ _),
    run_bind_readGpr, Stub.run_bind] at hrun
  simp only [gprValue_readGpr] at hrun
  generalize (formatInto _ _ _).run side closed _ = result at hrun hprints
  obtain ⟨m₁, side₁, e | out⟩ := result
  · cases hrun
  obtain rfl : out = bytes := Except.ok.inj hprints.ok
  obtain ⟨call, hcall⟩ := hprints.scratch
  simp only at hcall hrun
  subst hcall
  rw [Stub.run_bind_ok (Stub.run_update _ _ _ _), Stub.run_liftM] at hrun
  cases hrun
  exact stores_of_report (descriptor_ofNat hfd') hfd hopen hwritable call rfl
    (.inr (gprValue_answer _ _)) hreport

theorem stores_fputs (hfd : 3 ≤ fd) (hfd' : fd < 2 ^ 32) (hopen : openFile side fd = some file)
    (hwritable : file.writable = true) (hstream : m.regs.gprValue 1 true = handleOf fd)
    (hbytes : m.mem.HoldsString (m.regs.gprValue 0 true) bytes)
    (hrun : fputs.run side closed m = (m', side', .ok .continue))
    (hreport : (m'.regs.gprValue 0 true).toInt = bytes.length) :
    Stores side side' fd file bytes := by
  rw [fputs, run_bind_readGpr, run_bind_readGpr] at hrun
  simp only [gprValue_readGpr] at hrun
  rw [Stub.run_bind_ok (run_stream hstream hfd' hopen _ _ _)] at hrun
  rcases Nat.lt_or_ge bytes.length maxPrintfCallBytes with hshort | hlong
  · rw [Stub.run_bind_ok (by rw [Stub.run_liftM, run_attempt, readCString_of_holds hbytes hshort]),
      Stub.run_bind_ok (Stub.run_update _ _ _ _), Stub.run_liftM] at hrun
    cases hrun
    exact stores_of_report (descriptor_ofNat hfd') hfd hopen hwritable side.callScratch
      rfl (.inr (gprValue_answer _ _)) hreport
  · rw [Stub.run_bind_error
      (by rw [Stub.run_liftM, run_attempt, readCString_of_long hbytes hlong])] at hrun
    cases hrun

theorem stores_putc (hfd : 3 ≤ fd) (hfd' : fd < 2 ^ 32) (hopen : openFile side fd = some file)
    (hwritable : file.writable = true) (hstream : m.regs.gprValue 1 true = handleOf fd)
    (hrun : putc.run side closed m = (m', side', .ok .continue))
    (hreport : m'.regs.gprValue 0 true =
      ((m.regs.gprValue 0 true).setWidth 8).setWidth 64) :
    Stores side side' fd file [(m.regs.gprValue 0 true).setWidth 8] := by
  rw [putc, run_bind_readGpr] at hrun
  simp only at hrun
  rw [run_bind_readGpr] at hrun
  simp only [gprValue_readGpr] at hrun
  rw [Stub.run_bind_ok (run_stream hstream hfd' hopen _ _ _),
    Stub.run_bind_ok (Stub.run_update _ _ _ _), Stub.run_liftM] at hrun
  generalize (m.regs.gprValue 0 true).setWidth 8 = byte at hrun hreport
  rcases writeToFd_cases (descriptor_ofNat hfd') hfd hopen hwritable [byte] with
    ⟨hfits, hstored⟩ | ⟨-, n, -, hneg, hrefused⟩
  · rw [hstored] at hrun
    cases hrun
    exact ⟨side.callScratch, .inl ⟨hfits, rfl⟩⟩
  · rw [hrefused] at hrun
    cases hrun
    rw [if_neg (by omega)] at hreport
    have heof := (gprValue_answer eof _).symm.trans hreport
    have hbyte : ∀ byte : Byte, byte.setWidth 64 ≠ eof := by decide
    exact absurd heof.symm (hbyte byte)

theorem stores_fwrite (hfd : 3 ≤ fd) (hfd' : fd < 2 ^ 32) (hopen : openFile side fd = some file)
    (hwritable : file.writable = true) (hstream : m.regs.gprValue 3 true = handleOf fd)
    (hbytes : m.mem.Holds (m.regs.gprValue 0 true, bytes))
    (hcount : (m.regs.gprValue 1 true).toNat * (m.regs.gprValue 2 true).toNat = bytes.length)
    (hrun : fwrite.run side closed m = (m', side', .ok .continue))
    (hreport : (m'.regs.gprValue 0 true).toNat * (m.regs.gprValue 1 true).toNat =
      bytes.length) : Stores side side' fd file bytes := by
  -- no more than the address space is read, which is all of it when the write goes through
  have htake : (bytes.take (min bytes.length (2 ^ 64 - 1))).length =
      min bytes.length (2 ^ 64 - 1) := by
    rw [List.length_take]
    omega
  have hread := readEach_of_holds (hbytes.take (min bytes.length (2 ^ 64 - 1)))
  rw [htake] at hread
  rw [fwrite, run_bind_readGpr, run_bind_readGpr, run_bind_readGpr, run_bind_readGpr] at hrun
  simp only [gprValue_readGpr] at hrun
  rw [Stub.run_bind_ok (run_stream hstream hfd' hopen _ _ _), hcount,
    Stub.run_bind_ok (by rw [Stub.run_liftM, run_attempt, hread]),
    Stub.run_bind_ok (Stub.run_update _ _ _ _)] at hrun
  rcases writeToFd_cases (descriptor_ofNat hfd') hfd hopen hwritable
    (bytes.take (min bytes.length (2 ^ 64 - 1))) with
    ⟨hfits, hstored⟩ | ⟨hrefuses, n, -, hneg, hrefused⟩
  · have hall : bytes.take (min bytes.length (2 ^ 64 - 1)) = bytes := by
      apply List.take_of_length_le
      have hmax : maxVfsFileBytes = 4194304 := rfl
      have hbound := hfits.1
      omega
    rw [hall] at hfits hstored hrun
    rw [hstored] at hrun
    cases hrun
    exact ⟨side.callScratch, .inl ⟨hfits, rfl⟩⟩
  · have hnone : n ≤ 0 := hneg.le
    rw [hrefused] at hrun
    simp only [hnone, true_or, ↓reduceIte] at hrun
    rw [Stub.run_liftM] at hrun
    cases hrun
    have hnone : bytes = [] := by
      rw [gprValue_answer] at hreport
      exact List.length_eq_zero_iff.mp (hreport.symm.trans (Nat.zero_mul _))
    subst hnone
    exact ⟨side.callScratch, .inr ⟨hrefuses, rfl, rfl⟩⟩

/-- Every writer stores what it reports. -/
theorem WritesAll.stores (h : WritesAll side side' fd bytes) (hfd : 3 ≤ fd) (hfd' : fd < 2 ^ 32)
    (hopen : openFile side fd = some file) (hwritable : file.writable = true) :
    Stores side side' fd file bytes := by
  cases h with
  | write closed m m' hdescriptor hbytes hcount hrun hreport =>
      exact stores_write hfd hopen hwritable hdescriptor hbytes hcount hrun hreport
  | fprintf closed m m' hstream hbytes hrun hreport =>
      exact stores_fprintf hfd hfd' hopen hwritable hstream hbytes hrun hreport
  | fputs closed m m' hstream hbytes hrun hreport =>
      exact stores_fputs hfd hfd' hopen hwritable hstream hbytes hrun hreport
  | putc closed m m' byte hstream hbyte hbytes hrun hreport =>
      subst hbyte hbytes
      exact stores_putc hfd hfd' hopen hwritable hstream hrun hreport
  | fwrite closed m m' hstream hbytes hcount hrun hreport =>
      exact stores_fwrite hfd hfd' hopen hwritable hstream hbytes hcount hrun hreport

end Calls

end Write

section Read

variable {side side' : HostSide} {fd o : Nat} {file : OpenFile} {bytes : List Byte}

/-- A read of a file stores the bytes at its offset, and moves past them. -/
theorem run_sysRead {closed : Bool} {m m' : Machine} (hfd : 3 ≤ fd)
    (hdescriptor : descriptor (m.regs.gprValue 0 true) = fd)
    (hopen : openFile side fd = some file) (hcount : (m.regs.gprValue 2 true).toNat = bytes.length)
    (hdata : ((fileData side file.path).drop file.offset).take bytes.length = bytes)
    (hrun : sysRead.run side closed m = (m', side', .ok .continue)) :
    (m'.regs.gprValue 0 true).toNat = bytes.length ∧
      Written m.mem (m.regs.gprValue 1 true) bytes m'.mem ∧
      openFile side' fd = some { file with offset := file.offset + bytes.length } := by
  have hlen : bytes.length < 2 ^ 64 := hcount ▸ BitVec.isLt _
  have hzero : m.regs.gprValue 0 true ≠ 0 := by
    intro h
    rw [h] at hdescriptor
    exact absurd (hdescriptor ▸ hfd) (by decide)
  rw [sysRead, run_bind_readGpr, run_bind_readGpr, run_bind_readGpr] at hrun
  simp only [gprValue_readGpr] at hrun
  rw [if_neg hzero, Stub.run_bind_ok (Stub.run_look _ _ _ _), hdescriptor, hopen] at hrun
  simp only at hrun
  rw [Stub.run_bind_ok (Stub.run_look _ _ _ _), hcount, hdata, Stub.run_bind, Stub.run_liftM]
    at hrun
  generalize hm₁ : (⟨_, m.mem, m.heap⟩ : Machine) = m₁ at hrun
  have hwrite := @run_writeBytesAt (m.regs.gprValue 1 true) _ m₁ hlen.le
  generalize (writeBytesAt _ _).run m₁ = result at hrun hwrite
  obtain ⟨m₂, e | ⟨⟩⟩ := result
  · cases hrun
  cases hrun
  obtain ⟨hwritten, -⟩ := hwrite rfl
  rw [← hm₁] at hwritten
  exact ⟨toNat_answer hlen m₂, hwritten, openFile_moved⟩

/-- A seek back finds what stands there. -/
theorem readBack (hfd : 3 ≤ fd) (hopen : openFile side fd = some file) (ho : o ≤ maxVfsFileBytes)
    (hdata : ((fileData side file.path).drop o).take bytes.length = bytes) (closed : Bool)
    (m : Machine) (hdescriptor : descriptor (m.regs.gprValue 0 true) = fd)
    (hoffset : m.regs.gprValue 1 true = BitVec.ofNat 64 o)
    (hwhence : (m.regs.gprValue 2 true).setWidth 32 = 0#32) :
    ∃ m₁ side₁, sysLseek.run side closed m = (m₁, side₁, .ok .continue) ∧
      m₁.regs.gprValue 0 true = BitVec.ofNat 64 o ∧
      ∀ (closed' : Bool) (m₂ m₃ : Machine) (side₂ : HostSide),
        descriptor (m₂.regs.gprValue 0 true) = fd →
        (m₂.regs.gprValue 2 true).toNat = bytes.length →
        sysRead.run side₁ closed' m₂ = (m₃, side₂, .ok .continue) →
        (m₃.regs.gprValue 0 true).toNat = bytes.length ∧
          Written m₂.mem (m₂.regs.gprValue 1 true) bytes m₃.mem ∧
          ∃ file', openFile side₂ fd = some file' ∧ file'.path = file.path ∧
            file'.offset = o + bytes.length := by
  have hmax : maxVfsFileBytes = 4194304 := rfl
  have hseek : seekTo fd (BitVec.ofNat 64 o) 0 side = (moved side fd file o, (o : Int)) := by
    have htarget : (BitVec.ofNat 64 o).toInt = o := by
      rw [BitVec.toInt_eq_toNat_bmod, BitVec.toNat_ofNat, Nat.mod_eq_of_lt (by omega),
        Int.bmod_eq_of_le (by omega) (by omega)]
    unfold seekTo seekTarget
    rw [hopen]
    simp only [htarget, Int.toNat_natCast]
    rw [if_neg (by omega)]
    rfl
  obtain ⟨m₁, hrun, hx0⟩ := @run_sysLseek side closed m
  rw [hdescriptor, hoffset, hwhence] at hrun hx0
  have hzero : (0#32).toNat = 0 := rfl
  rw [hzero, hseek] at hrun hx0
  refine ⟨m₁, _, hrun, by rw [hx0, BitVec.ofInt_natCast], ?_⟩
  intro closed' m₂ m₃ side₂ hdescriptor' hcount hread
  obtain ⟨hanswer, hwritten, hopened⟩ :=
    run_sysRead hfd hdescriptor' openFile_moved hcount hdata hread
  exact ⟨hanswer, hwritten, _, hopened, rfl, rfl⟩

end Read

section Compose

variable {side side' : HostSide} {fd o : Nat} {file : OpenFile} {bytes : List Byte}

/-- What was stored composes, unless it was nothing, past the end. -/
theorem composes_stored (hfd : 3 ≤ fd) (ho : o ≤ maxVfsFileBytes) (call : CallRecord)
    (hend : bytes ≠ [] ∨ o ≤ (fileData side file.path).length) :
    Composes side (stored { moved side fd file o with callScratch := call } fd
      { file with offset := o } bytes) fd file.path o bytes := by
  have hdata : fileData (stored { moved side fd file o with callScratch := call } fd
      { file with offset := o } bytes) file.path =
        Splice.splice 0 (fileData side file.path) o bytes := fileData_stored
  constructor
  case length =>
    rw [hdata, Splice.length_splice]
    split
    · rename_i hnone
      have hle := hend.resolve_left (not_not_intro hnone)
      rw [hnone, List.length_nil]
      omega
    · rfl
  case outside =>
    intro i hi hout
    rw [hdata]
    exact Splice.getElem?_splice_of_lt 0 _ o bytes hi hout
  case gap =>
    intro i hi hgap _
    rw [hdata]
    exact Splice.getElem?_splice_gap 0 _ o bytes hi hgap
  case offset => exact ⟨_, openFile_stored, rfl, rfl⟩
  case readBack =>
    intro closed m hdescriptor hoffset hwhence
    apply readBack hfd openFile_stored ho _ closed m hdescriptor hoffset hwhence
    rw [hdata]
    exact Splice.take_drop_splice 0 _ o bytes

/-- Nothing written, and refused, leaves the file alone. -/
theorem composes_refused (hfd : 3 ≤ fd) (ho : o ≤ maxVfsFileBytes) (call : CallRecord) :
    Composes side { moved side fd file o with callScratch := call } fd file.path o [] := by
  have hopen : openFile { moved side fd file o with callScratch := call } fd =
      some { file with offset := o } := openFile_moved
  constructor
  case length => rfl
  case outside => exact fun _ _ _ => rfl
  case gap => exact fun i hi _ hlt => absurd hlt (Nat.not_lt.mpr hi)
  case offset => exact ⟨_, hopen, rfl, rfl⟩
  case readBack =>
    intro closed m hdescriptor hoffset hwhence
    exact @readBack _ fd o _ [] hfd hopen ho rfl closed m hdescriptor hoffset hwhence

/-- A seek, a write that reports all of its bytes, and a read compose, except where no bytes at
all are written past the end of the file and the gap in front of them would fit: there the file
grows by the gap. -/
theorem file_offsets_compose_iff {side side₁ side₂ : HostSide} (hfd : 3 ≤ fd)
    (hopen : openFile side fd = some file) (hwritable : file.writable = true)
    (hseek : Seeks side side₁ fd o) (hwrite : WritesAll side₁ side₂ fd bytes) :
    Composes side side₂ fd file.path o bytes ↔
      bytes ≠ [] ∨ o ≤ (fileData side file.path).length ∨
        maxVfsTotalBytes < totalBytes side + (o - (fileData side file.path).length) := by
  have hfd' : fd < 2 ^ 32 := by
    obtain ⟨_, _, _, hdescriptor, -⟩ := hseek
    rw [← hdescriptor]
    exact BitVec.isLt _
  obtain ⟨ho, rfl⟩ := hseek.moved hopen
  obtain ⟨call, ⟨hfits, rfl⟩ | ⟨hrefused, rfl, rfl⟩⟩ :=
    hwrite.stores hfd hfd' openFile_moved hwritable
  · constructor
    · intro hcomposes
      by_contra hnot
      rw [not_or, not_or, not_not] at hnot
      obtain ⟨rfl, hpast, -⟩ := hnot
      have hlength := hcomposes.length
      have hdata : fileData (stored { moved side fd file o with callScratch := call } fd
          { file with offset := o } []) file.path =
            Splice.splice 0 (fileData side file.path) o [] := fileData_stored
      rw [if_pos rfl, hdata, Splice.length_splice, List.length_nil] at hlength
      omega
    · intro hend
      apply composes_stored hfd ho call
      rcases hend with hsome | hin | hfull
      · exact .inl hsome
      · exact .inr hin
      · left
        rintro rfl
        have hroom := hfits.2
        exact absurd hroom (Nat.not_le.mpr hfull)
  · refine iff_of_true (composes_refused hfd ho call) ?_
    by_contra hnot
    rw [not_or, not_or, Nat.not_lt] at hnot
    exact hrefused ⟨ho, hnot.2.2⟩

end Compose

section Runs

def emptyFile : HostSide :=
  { HostSide.idle with vfs := [("f", [])], openFiles := [(3, ⟨"f", 0, true⟩)] }

def fileCall (x1 x2 : Word) : Machine :=
  ⟨((RegisterFile.new.writeGpr 0 true 3).writeGpr 1 true x1).writeGpr 2 true x2,
    textMemory [0x61, 0x62], HeapState.new⟩

/-- `lseek(3, 5, SEEK_SET)`. -/
def soughtFile : HostSide := (sysLseek.run emptyFile false (fileCall 5 0)).2.1

theorem seeks_soughtFile : Seeks emptyFile soughtFile 3 5 := by
  have hok : (sysLseek.run emptyFile false (fileCall 5 0)).2.2 = .ok .continue := by
    decide
  refine ⟨false, fileCall 5 0, (sysLseek.run emptyFile false (fileCall 5 0)).1, by decide,
    ?_, by decide, by decide⟩
  rw [← hok]
  rfl

/-- `write(3, 0x500000, n)`. -/
theorem writesAll_fileCall {n : Nat} (hn : n ≤ 2)
    (hok : (sysWrite.run soughtFile false (fileCall 0x500000 (BitVec.ofNat 64 n))).2.2 =
      .ok .continue)
    (hreport : ((sysWrite.run soughtFile false
      (fileCall 0x500000 (BitVec.ofNat 64 n))).1.regs.gprValue 0 true).toInt = n) :
    WritesAll soughtFile
      (sysWrite.run soughtFile false (fileCall 0x500000 (BitVec.ofNat 64 n))).2.1 3
      (([0x61, 0x62] : List Byte).take n) := by
  have hlength : (([0x61, 0x62] : List Byte).take n).length = n := by
    rw [List.length_take]
    exact Nat.min_eq_left hn
  have htext : (fileCall 0x500000 (BitVec.ofNat 64 n)).mem.Holds (0x500000, [0x61, 0x62]) :=
    holds_of_readEach (n := 2) (by
      show (textMemory [0x61, 0x62]).readEach 0x500000 2 = _
      decide)
  have hx1 : (fileCall 0x500000 (BitVec.ofNat 64 n)).regs.gprValue 1 true = 0x500000 :=
    (gprValue_writeGpr_of_ne _ _ true (by decide) (by decide)).trans
      (gprValue_writeGpr_same _ _ (by decide))
  have hx2 : (fileCall 0x500000 (BitVec.ofNat 64 n)).regs.gprValue 2 true = BitVec.ofNat 64 n :=
    gprValue_writeGpr_same _ _ (by decide)
  have hx0 : (fileCall 0x500000 (BitVec.ofNat 64 n)).regs.gprValue 0 true = 3 :=
    (gprValue_writeGpr_of_ne _ _ true (by decide) (by decide)).trans
      ((gprValue_writeGpr_of_ne _ _ true (by decide) (by decide)).trans
        (gprValue_writeGpr_same _ _ (by decide)))
  refine .write false (fileCall 0x500000 (BitVec.ofNat 64 n)) (sysWrite.run soughtFile false
    (fileCall 0x500000 (BitVec.ofNat 64 n))).1 ?_ ?_ ?_ ?_ ?_
  · rw [hx0]
    rfl
  · rw [hx1]
    exact htext.take n
  · rw [hx2, hlength, BitVec.toNat_ofNat, Nat.mod_eq_of_lt (by omega)]
  · rw [← hok]
  · rw [hreport, hlength]

/-- Two bytes written past the end of an empty file compose. -/
theorem file_offsets_compose_two : ∃ side₂, WritesAll soughtFile side₂ 3 [0x61, 0x62] ∧
    Composes emptyFile side₂ 3 "f" 5 [0x61, 0x62] := by
  have hwrite := writesAll_fileCall (n := 2) le_rfl (by decide) (by decide)
  have hopen : openFile emptyFile 3 = some ⟨"f", 0, true⟩ := by decide
  exact ⟨_, hwrite, (file_offsets_compose_iff (by decide) hopen rfl seeks_soughtFile
    hwrite).mpr (.inl (by decide))⟩

/-- Writing no bytes at offset 5 of an empty file makes it five bytes long. -/
theorem not_file_offsets_compose :
    ¬ ∀ (side side₁ side₂ : HostSide) (fd o : Nat) (file : OpenFile) (bytes : List Byte),
      3 ≤ fd → openFile side fd = some file → file.writable = true → Seeks side side₁ fd o →
      WritesAll side₁ side₂ fd bytes → Composes side side₂ fd file.path o bytes := by
  intro hall
  have hwrite := writesAll_fileCall (n := 0) (by decide) (by decide) (by decide)
  have hcomposes := hall emptyFile soughtFile _ 3 5 ⟨"f", 0, true⟩ [] (by decide) (by decide) rfl
    seeks_soughtFile hwrite
  have hlength := hcomposes.length
  have hfive : (fileData (sysWrite.run soughtFile false
      (fileCall 0x500000 (BitVec.ofNat 64 0))).2.1 "f").length = 5 := by
    decide
  rw [if_pos rfl, hfive] at hlength
  exact absurd hlength (by decide)

end Runs

end Hosted

end Playground
