/-
The virtual files over whole runs: the walls hold after any calls on any arguments, and a call
that reports a failure, or waits, has left every file and every descriptor as it was.
-/
import Playground.Hosted.FileStore

namespace Playground

namespace Hosted

open Exec

variable {side side' : HostSide} {closed : Bool} {m : Machine}

section Scratch

variable {α β : Type}

/-- Code that leaves the files and the descriptors alone, however it ends. -/
def LeavesFiles (x : Stub α) : Prop :=
  ∀ side closed m, SameFiles side (x.run side closed m).2.1

namespace LeavesFiles

theorem pure (a : α) : LeavesFiles (pure a : Stub α) := fun side _ _ => .refl side

theorem fail (e : EmuError) : LeavesFiles (Stub.fail e : Stub α) := fun side _ _ => .refl side

theorem exec (x : Exec α) : LeavesFiles (liftM x : Stub α) := fun side closed m => by
  rw [Stub.run_liftM]
  exact .refl side

theorem modifyCall (f : CallRecord → CallRecord) : LeavesFiles (modifyCall f) :=
  fun _ _ _ => ⟨rfl, rfl, rfl⟩

theorem bind {x : Stub α} {f : α → Stub β} (hx : LeavesFiles x) (hf : ∀ a, LeavesFiles (f a)) :
    LeavesFiles (x >>= f) := by
  intro side closed m
  have hfirst := hx side closed m
  rw [Stub.run_bind]
  generalize x.run side closed m = result at hfirst ⊢
  obtain ⟨m', side', e | a⟩ := result
  · exact hfirst
  · exact hfirst.trans (hf a side' closed m')

end LeavesFiles

theorem leavesFiles_formatConversion (spec : FormatSpec) (conv : Byte) (walker : VarargWalker) :
    LeavesFiles (formatConversion spec conv walker) := by
  unfold formatConversion
  split
  · exact .pure _
  split
  · exact .bind (.exec _) fun _ => .pure _
  split
  · exact .bind (.exec _) fun _ => .pure _
  split
  · exact .bind (.exec _) fun _ => .pure _
  split
  · exact .bind (.exec _) fun _ => .pure _
  split
  · refine .bind (.exec _) fun _ => .bind (.exec _) fun read => ?_
    cases read with
    | ok bytes => exact .bind (.modifyCall _) fun _ => .pure _
    | error e => exact .pure _
  split
  · split
    · exact .pure _
    · exact .bind (.exec _) fun _ => .pure _
  split
  · exact .pure _
  · exact .pure _

theorem leavesFiles_formatFrom (pos skip : Nat) (walker : VarargWalker) (out fmt : List Byte) :
    LeavesFiles (formatFrom pos skip walker out fmt) := by
  induction fmt generalizing pos skip walker out with
  | nil => exact .pure _
  | cons c rest ih =>
      cases skip with
      | succ skip => exact ih _ _ _ _
      | zero =>
          rw [formatFrom]
          split
          · exact ih _ _ _ _
          refine .bind (.exec _) fun parsed => ?_
          obtain ⟨spec, used, walker⟩ := parsed
          dsimp only
          split
          · exact .pure _
          refine .bind (.modifyCall _) fun _ => ?_
          refine .bind (leavesFiles_formatConversion _ _ _) fun ran => ?_
          obtain ⟨walker, text, done⟩ := ran
          refine .bind (.modifyCall _) fun _ => ?_
          cases done with
          | error e => exact .fail e
          | ok =>
              dsimp only
              split
              · exact .fail _
              · exact ih _ _ _ _

theorem leavesFiles_formatInto (fmtPtr : Word) (firstGp : Nat) (what : String) :
    LeavesFiles (formatInto fmtPtr firstGp what) :=
  .bind (.exec _) fun _ => .bind (.modifyCall _) fun _ =>
    .bind (leavesFiles_formatFrom _ _ _ _ _) fun _ => .bind (.modifyCall _) fun _ => .pure _

end Scratch

/-- What a call left of the files: a change of one of the known shapes, and none where it
reports a failure or waits. -/
structure CallKeeps (side : HostSide) (fails : Word → Prop)
    (result : Machine × HostSide × Except EmuError HostOutcome) : Prop where
  change : FileChange side result.2.1
  failed : result.2.2 = .ok .continue → fails (result.1.regs.gprValue 0 true) →
    SameFiles side result.2.1
  waits : result.2.2 = .ok .needInput → SameFiles side result.2.1
  halts : ∀ e, result.2.2 = .error e → result.2.1.vfs = side.vfs

namespace CallKeeps

variable {fails : Word → Prop} {α : Type} {f : α → Stub HostOutcome}
  {result : Machine × HostSide × Except EmuError HostOutcome}

theorem of_same (h : SameFiles side result.2.1) : CallKeeps side fails result :=
  ⟨.same h, fun _ _ => h, fun _ => h, fun _ _ => h.vfs⟩

theorem of_run (hsame : SameFiles side side') (h : CallKeeps side' fails result) :
    CallKeeps side fails result :=
  ⟨h.change.of_same hsame, fun hok hfails => hsame.trans (h.failed hok hfails),
    fun hwaits => hsame.trans (h.waits hwaits), fun e he => (h.halts e he).trans hsame.vfs⟩

theorem answered (value : Word) (hchange : FileChange side side')
    (hfails : fails value → SameFiles side side') :
    CallKeeps side fails ((liftM (answer value) : Stub HostOutcome).run side' closed m) := by
  rw [Stub.run_liftM]
  have hok : ((answer value).run m).2 = .ok .continue := rfl
  refine ⟨hchange, fun _ h => hfails ?_, fun h => ?_, fun e h => ?_⟩
  · rwa [gprValue_answer] at h
  · rw [hok] at h
    cases h
  · rw [hok] at h
    cases h

theorem bind_exec (x : Exec α) (hsame : SameFiles side side')
    (h : ∀ a m', (x.run m).2 = .ok a → CallKeeps side fails ((f a).run side' closed m')) :
    CallKeeps side fails (((liftM x : Stub α) >>= f).run side' closed m) := by
  rw [Stub.run_bind, Stub.run_liftM]
  cases hx : (x.run m).2 with
  | error e => exact .of_same hsame
  | ok a => exact h a _ hx

theorem bind_leaves {x : Stub α} (hx : LeavesFiles x)
    (h : ∀ a side' m, SameFiles side side' → CallKeeps side fails ((f a).run side' closed m)) :
    CallKeeps side fails ((x >>= f).run side closed m) := by
  have hsame := hx side closed m
  rw [Stub.run_bind]
  generalize x.run side closed m = ran at hsame ⊢
  obtain ⟨m', side', e | a⟩ := ran
  · exact .of_same hsame
  · exact h a side' m' hsame

end CallKeeps

theorem leavesFiles_stream (call : String) (handle : Word) : LeavesFiles (stream call handle) :=
  .bind (fun side _ _ => .refl side) fun fd => by
    cases fd with
    | some fd => exact .pure _
    | none => exact .fail _

/-- The value in x0 by which a call reports a failure. -/
def FileCall.Fails (m : Machine) : FileCall → Word → Prop
  | .openat, x0 | .close, x0 | .lseek, x0 | .read, x0 | .write, x0 | .fprintf, x0 | .fputs, x0 =>
      x0.toInt < 0
  | .fopen, x0 => x0 = 0
  | .fclose, x0 | .putc, x0 | .getc, x0 => x0 = eof
  -- a line may be stored at the null page of a program that mapped one
  | .fgets, x0 => x0 = 0 ∧ m.regs.gprValue 0 true ≠ 0
  -- fewer items than asked for
  | .fwrite, x0 => m.regs.gprValue 1 true ≠ 0 ∧ x0.toNat < (m.regs.gprValue 2 true).toNat

section Writers

variable {w : Word} {bytes : List Byte}

/-- A write whose report is a failure has stored nothing. -/
theorem keeps_writeToFd {fails : Word → Prop} (report : Int → Word) (hsame : SameFiles side side')
    (hreport : bytes.length ≤ maxVfsFileBytes → ¬ fails (report bytes.length)) :
    CallKeeps side fails
      ((Stub.update (writeToFd w bytes) >>= fun n =>
        (liftM (answer (report n)) : Stub HostOutcome)).run side' closed m) := by
  rw [Stub.run_bind_ok (Stub.run_update _ _ _ _)]
  refine .answered _ ((change_writeToFd w bytes side').of_same hsame) fun hfails => ?_
  rcases writeToFd_files w bytes side' with hkept | ⟨file, -, hfits, hstored⟩
  · exact hsame.trans hkept
  · rw [hstored] at hfails
    exact absurd hfails (hreport (Nat.le_of_add_left_le hfits.1))

theorem toInt_ofInt_length {n : Nat} (h : n ≤ maxVfsFileBytes) :
    (BitVec.ofInt 64 n).toInt = n := by
  have hmax : maxVfsFileBytes = 4194304 := rfl
  rw [BitVec.toInt_ofInt, Int.bmod_eq_of_le (by omega) (by omega)]

theorem keeps_sysWrite :
    CallKeeps side (FileCall.write.Fails m) (sysWrite.run side closed m) := by
  rw [sysWrite, run_bind_readGpr, run_bind_readGpr, run_bind_readGpr]
  refine .bind_exec _ (.refl side) fun bytes m _ => ?_
  refine keeps_writeToFd (fun n => BitVec.ofInt 64 n) (.refl side) fun hlen hfails => ?_
  rw [FileCall.Fails, toInt_ofInt_length hlen] at hfails
  omega

theorem keeps_fprintf :
    CallKeeps side (FileCall.fprintf.Fails m) (fprintf.run side closed m) := by
  rw [fprintf, run_bind_readGpr]
  refine .bind_leaves (leavesFiles_stream _ _) fun fd side₁ m hfirst => ?_
  rw [run_bind_readGpr]
  refine .of_run hfirst (.bind_leaves (leavesFiles_formatInto _ _ _) fun out side₂ m hsecond => ?_)
  refine keeps_writeToFd (fun n => BitVec.ofInt 64 (max n (-1))) hsecond fun hlen hfails => ?_
  have hreport : max (out.length : Int) (-1) = out.length := by omega
  rw [FileCall.Fails, hreport, toInt_ofInt_length hlen] at hfails
  omega

theorem keeps_fputs : CallKeeps side (FileCall.fputs.Fails m) (fputs.run side closed m) := by
  rw [fputs, run_bind_readGpr, run_bind_readGpr]
  refine .bind_leaves (leavesFiles_stream _ _) fun fd side₁ m hfirst => ?_
  refine .bind_exec _ hfirst fun bytes m _ => ?_
  refine keeps_writeToFd (fun n => BitVec.ofInt 64 (max n (-1))) hfirst fun hlen hfails => ?_
  have hreport : max (bytes.length : Int) (-1) = bytes.length := by omega
  rw [FileCall.Fails, hreport, toInt_ofInt_length hlen] at hfails
  omega

theorem setWidth_ne_eof (byte : Byte) : byte.setWidth 64 ≠ eof := by
  revert byte
  decide

theorem keeps_putc : CallKeeps side (FileCall.putc.Fails m) (putc.run side closed m) := by
  rw [putc, run_bind_readGpr]
  dsimp only
  rw [run_bind_readGpr]
  generalize (m.regs.gprValue 0 true).setWidth 8 = byte
  refine .bind_leaves (leavesFiles_stream _ _) fun fd side₁ m₁ hfirst => ?_
  refine keeps_writeToFd (fun n => if n = 1 then byte.setWidth 64 else eof) hfirst
    fun _ hfails => setWidth_ne_eof byte ?_
  rwa [FileCall.Fails, List.length_singleton, Nat.cast_one, if_pos rfl] at hfails

theorem keeps_fwrite : CallKeeps side (FileCall.fwrite.Fails m) (fwrite.run side closed m) := by
  rw [fwrite, run_bind_readGpr, run_bind_readGpr, run_bind_readGpr, run_bind_readGpr]
  simp only [gprValue_readGpr]
  generalize hsize : m.regs.gprValue 1 true = size
  generalize hcount : m.regs.gprValue 2 true = count
  refine .bind_leaves (leavesFiles_stream _ _) fun fd side₁ m₁ hfirst => ?_
  refine .bind_exec _ hfirst fun bytes m₂ hread => ?_
  have hlength : bytes.length = min (size.toNat * count.toNat) (2 ^ 64 - 1) := by
    rw [run_attempt] at hread
    exact Memory.length_readEach hread
  refine keeps_writeToFd (fun written => BitVec.ofNat 64
    (if written ≤ 0 ∨ size = 0 then 0 else written.toNat / size.toNat)) hfirst
    fun hlen hfails => ?_
  obtain ⟨hsome, hshort⟩ := hfails
  rw [hsize] at hsome
  rw [hcount] at hshort
  -- a product that is stored whole did not overflow, so it divides back to the count
  have hmax : maxVfsFileBytes = 4194304 := rfl
  have hproduct : bytes.length = size.toNat * count.toNat := by omega
  have hpos : 0 < size.toNat := Nat.pos_of_ne_zero fun h => hsome (BitVec.eq_of_toNat_eq h)
  have hcountLt := count.isLt
  by_cases hnone : (bytes.length : Int) ≤ 0
  · have hzero : count.toNat = 0 := by
      have hempty : size.toNat * count.toNat = 0 := by omega
      exact (Nat.mul_eq_zero.mp hempty).resolve_left (by omega)
    omega
  · rw [if_neg (not_or.mpr ⟨hnone, hsome⟩), Int.toNat_natCast, hproduct,
      Nat.mul_div_cancel_left _ hpos, BitVec.toNat_ofNat, Nat.mod_eq_of_lt hcountLt] at hshort
    omega

end Writers

section Readers

theorem keeps_sysLseek :
    CallKeeps side (FileCall.lseek.Fails m) (sysLseek.run side closed m) := by
  rw [sysLseek, run_bind_readGpr, run_bind_readGpr, run_bind_readGpr,
    Stub.run_bind_ok (Stub.run_update _ _ _ _)]
  generalize descriptor _ = fd
  generalize BitVec.toNat _ = whence
  refine .answered _ (change_seekTo _ _ _ side) fun hfails => ?_
  rcases seekTo_files fd _ whence side with ⟨hsame, -⟩ | ⟨file, o, -, ho, hseek⟩
  · rw [hsame]
    exact .refl side
  · rw [FileCall.Fails, hseek, toInt_ofInt_length ho] at hfails
    omega

theorem keeps_sysRead (hok : FilesOk side) :
    CallKeeps side (FileCall.read.Fails m) (sysRead.run side closed m) := by
  rw [sysRead, run_bind_readGpr, run_bind_readGpr, run_bind_readGpr]
  simp only [gprValue_readGpr]
  split
  · rw [Stub.run_bind_ok (Stub.run_look _ _ _ _)]
    split
    · rw [Stub.run_bind_ok (Stub.run_stdinClosed _ _ _), Stub.run_bind_ok (Stub.run_look _ _ _ _)]
      split
      · exact .answered _ (.same (.refl side)) fun _ => .refl side
      split
      · exact .answered _ (.same (.refl side)) fun _ => .refl side
      · exact .of_same (.refl side)
    · refine .bind_exec _ (.refl side) fun _ m _ => ?_
      rw [Stub.run_bind_ok (Stub.run_modify _ _ _ _)]
      exact .answered _ (.same ⟨rfl, rfl, rfl⟩) fun _ => ⟨rfl, rfl, rfl⟩
  · rw [Stub.run_bind_ok (Stub.run_look _ _ _ _)]
    cases hopen : openFile side (descriptor (m.regs.gprValue 0 true)) with
    | none => exact .answered _ (.same (.refl side)) fun _ => .refl side
    | some file =>
        dsimp only
        rw [Stub.run_bind_ok (Stub.run_look _ _ _ _)]
        generalize hbytes : List.take _ ((fileData side file.path).drop file.offset) = bytes
        have hlen : bytes.length ≤ (fileData side file.path).length - file.offset := by
          rw [← hbytes, List.length_take, List.length_drop]
          exact Nat.min_le_right _ _
        refine .bind_exec _ (.refl side) fun _ m _ => ?_
        rw [Stub.run_bind_ok (Stub.run_modify _ _ _ _)]
        refine .answered _ (.moved hopen (.inr ?_) (.refl _)) fun hfails => ?_
        · omega
        · have hdata := length_fileData_le hok file.path
          rw [FileCall.Fails, ← BitVec.ofInt_natCast, toInt_ofInt_length (by omega)] at hfails
          omega

theorem keeps_getchar {fails : Word → Prop} :
    CallKeeps side fails (getchar.run side closed m) := by
  rw [getchar, Stub.run_bind_ok (Stub.run_look _ _ _ _)]
  cases side.stdin with
  | nil =>
      dsimp only
      rw [Stub.run_bind_ok (Stub.run_stdinClosed _ _ _)]
      split
      · exact .answered _ (.same (.refl side)) fun _ => .refl side
      · exact .of_same (.refl side)
  | cons byte rest =>
      dsimp only
      rw [Stub.run_bind_ok (Stub.run_modify _ _ _ _)]
      exact .answered _ (.same ⟨rfl, rfl, rfl⟩) fun _ => ⟨rfl, rfl, rfl⟩

theorem keeps_getc : CallKeeps side (FileCall.getc.Fails m) (getc.run side closed m) := by
  rw [getc, run_bind_readGpr]
  refine .bind_leaves (leavesFiles_stream _ _) fun fd side₁ m₁ hfirst => ?_
  split
  · exact .of_run hfirst keeps_getchar
  · obtain ⟨hchange, -, hempty⟩ := takeLineFromFile_files fd.toNat 1 side₁
    rw [Stub.run_bind_ok (Stub.run_update _ _ _ _)]
    cases hline : (takeLineFromFile fd.toNat 1 side₁).2 with
    | nil => exact .answered _ (hchange.of_same hfirst) fun _ => hfirst.trans (hempty hline)
    | cons byte rest =>
        exact .answered _ (hchange.of_same hfirst) fun hfails =>
          absurd hfails (setWidth_ne_eof byte)

theorem keeps_storeLine {fails : Word → Prop} {buf : Word} {line : List Byte}
    (hchange : FileChange side side') (hvfs : side'.vfs = side.vfs)
    (hempty : line = [] → SameFiles side side') (hfails : fails buf → SameFiles side side') :
    CallKeeps side fails ((liftM (storeLine buf line) : Stub HostOutcome).run side' closed m) := by
  unfold storeLine
  split
  next hnil => exact .answered _ hchange fun _ => hempty hnil
  rw [Stub.run_liftM, run_bind]
  rcases (writeCString buf line).run m with ⟨m₁, e | ⟨⟩⟩
  · refine ⟨hchange, fun h => ?_, fun h => ?_, fun _ _ => hvfs⟩ <;> cases h
  · have hanswer : CallKeeps side fails
        ((liftM (answer buf) : Stub HostOutcome).run side' closed m₁) := .answered _ hchange hfails
    rwa [Stub.run_liftM] at hanswer

theorem keeps_fgets : CallKeeps side (FileCall.fgets.Fails m) (fgets.run side closed m) := by
  rw [fgets, run_bind_readGpr, run_bind_readGpr, run_bind_readGpr]
  simp only [gprValue_readGpr]
  generalize hbuf : m.regs.gprValue 0 true = buf
  -- a null is a failure only where the buffer is none
  have hnull : ∀ {side₁ side₂ : HostSide}, FileCall.fgets.Fails m buf → SameFiles side₁ side₂ := by
    intro side₁ side₂ hfails
    exact absurd (hbuf.trans hfails.1) hfails.2
  refine .bind_leaves (leavesFiles_stream _ _) fun fd side₁ m₁ hfirst => ?_
  split
  · exact .answered _ (.same hfirst) fun _ => hfirst
  split
  · refine .bind_exec _ hfirst fun _ m₂ _ => ?_
    exact .answered _ (.same hfirst) fun _ => hfirst
  split
  · rw [Stub.run_bind_ok (Stub.run_look _ _ _ _), Stub.run_bind_ok (Stub.run_stdinClosed _ _ _)]
    split
    · exact .of_same hfirst
    · rw [Stub.run_bind_ok (Stub.run_modify _ _ _ _)]
      have hstdin : ∀ stdin, SameFiles side { side₁ with stdin := stdin } := fun stdin =>
        hfirst.trans ⟨rfl, rfl, rfl⟩
      exact keeps_storeLine (.same (hstdin _)) (hstdin _).vfs (fun _ => hstdin _) fun _ => hstdin _
  split
  · exact .answered _ (.same hfirst) fun _ => hfirst
  · obtain ⟨hchange, hvfs, hempty⟩ := takeLineFromFile_files fd.toNat (asI32 _ - 1).toNat side₁
    rw [Stub.run_bind_ok (Stub.run_update _ _ _ _)]
    exact keeps_storeLine (hchange.of_same hfirst) (hvfs.trans hfirst.vfs)
      (fun hnil => hfirst.trans (hempty hnil)) hnull

end Readers

section Opens

/-- A refused open, or one that took the next descriptor. -/
def Opens (side : HostSide) (opened : HostSide × Except Int Nat) : Prop :=
  (∃ errno, opened = (side, .error errno)) ∨
    FileChange side opened.1 ∧ opened.2 = .ok side.nextFd

theorem opens_openMode (path mode : String) (side : HostSide) :
    Opens side (openMode path mode side) := by
  unfold openMode
  dsimp only
  split
  · exact openVfs_files _ _ _ _ _ side
  · exact openVfs_files _ _ _ _ _ side
  · exact openVfs_files _ _ _ _ _ side
  · exact .inl ⟨eInval, rfl⟩

/-- An open that is answered with its descriptor, and a refusal with a value. -/
theorem keeps_opened {fails : Word → Prop} {opened : HostSide × Except Int Nat}
    (h : Opens side opened) (success : Nat → Word) (refusal : Int → Word)
    (hsuccess : ¬ fails (success side.nextFd)) :
    CallKeeps side fails ((match opened.2 with
      | .ok fd => (liftM (answer (success fd)) : Stub HostOutcome)
      | .error errno => liftM (answer (refusal errno))).run opened.1 closed m) := by
  obtain ⟨side₁, result⟩ := opened
  rcases h with ⟨errno, hrefused⟩ | ⟨hchange, hresult⟩
  · cases hrefused
    exact .answered _ (.same (.refl side)) fun _ => .refl side
  · cases hresult
    exact .answered _ hchange fun hfails => absurd hfails hsuccess

theorem keeps_sysOpenat (hnext : side.nextFd < 2 ^ 32) :
    CallKeeps side (FileCall.openat.Fails m) (sysOpenat.run side closed m) := by
  rw [sysOpenat, run_bind_readGpr, run_bind_readGpr]
  refine .bind_exec _ (.refl side) fun path m₁ _ => ?_
  dsimp only
  rw [Stub.run_bind_ok (Stub.run_update _ _ _ _)]
  refine keeps_opened (openVfs_files _ _ _ _ _ side) (BitVec.ofNat 64) (BitVec.ofInt 64) ?_
  rw [FileCall.Fails, BitVec.toInt_ofNat', Int.bmod_eq_of_le (by omega) (by omega)]
  omega

theorem keeps_sysClose : CallKeeps side (FileCall.close.Fails m) (sysClose.run side closed m) := by
  rw [sysClose, run_bind_readGpr, Stub.run_bind_ok (Stub.run_update _ _ _ _)]
  generalize descriptor _ = fd
  refine .answered _ (.closed (.refl _)) fun hfails => closeFd_files fd side ?_
  cases hclosed : (closeFd fd side).2 with
  | false => rfl
  | true =>
      rw [hclosed, if_pos rfl] at hfails
      exact absurd (show (0 : Word).toInt < 0 from hfails) (by decide)

theorem handleOf_ne_zero {fd : Nat} (h : fd < 2 ^ 32) : handleOf fd ≠ 0 := by
  intro hzero
  have hnat := congrArg BitVec.toNat hzero
  rw [handleOf, BitVec.toNat_ofNat, fileHandleBase, fileHandleStride,
    Nat.mod_eq_of_lt (by omega)] at hnat
  simp at hnat

theorem keeps_fopen (hnext : side.nextFd < 2 ^ 32) :
    CallKeeps side (FileCall.fopen.Fails m) (fopen.run side closed m) := by
  rw [fopen, run_bind_readGpr, run_bind_readGpr]
  refine .bind_exec _ (.refl side) fun path m₁ _ => ?_
  refine .bind_exec _ (.refl side) fun mode m₂ _ => ?_
  rw [Stub.run_bind_ok (Stub.run_update _ _ _ _)]
  exact keeps_opened (opens_openMode path mode side) handleOf (fun _ => 0)
    (handleOf_ne_zero hnext)

theorem keeps_fclose : CallKeeps side (FileCall.fclose.Fails m) (fclose.run side closed m) := by
  rw [fclose, run_bind_readGpr, Stub.run_bind_ok (Stub.run_look _ _ _ _)]
  generalize fdOf _ side = fd
  cases fd with
  | none => exact .answered _ (.same (.refl side)) fun _ => .refl side
  | some fd =>
      dsimp only
      rw [Stub.run_bind_ok (Stub.run_modify _ _ _ _)]
      refine .answered _ ?_ fun hfails =>
        absurd (show (0 : Word) = eof from hfails) (by decide)
      split
      · exact .closed (.refl _)
      · exact .same (.refl side)

end Opens

/-- Every call on any arguments changes the files in one of the known ways, or not at all. -/
theorem call_keeps (call : FileCall) (hok : FilesOk side) (hnext : side.nextFd < 2 ^ 32)
    (closed : Bool) (m : Machine) :
    CallKeeps side (call.Fails m) (call.stub.run side closed m) := by
  cases call with
  | openat => exact keeps_sysOpenat hnext
  | close => exact keeps_sysClose
  | lseek => exact keeps_sysLseek
  | read => exact keeps_sysRead hok
  | write => exact keeps_sysWrite
  | fopen => exact keeps_fopen hnext
  | fclose => exact keeps_fclose
  | fprintf => exact keeps_fprintf
  | fputs => exact keeps_fputs
  | putc => exact keeps_putc
  | fwrite => exact keeps_fwrite
  | getc => exact keeps_getc
  | fgets => exact keeps_fgets

/-- The files as the host sets them from outside. -/
def hostVfs (side : HostSide) (vfs : List (String × List Byte)) : HostSide :=
  { side with vfs := vfs }

section Uploads

variable {c : Cpu} {path : String} {data : List Byte}

theorem any_eq_true_iff (vfs : List (String × List Byte)) (path : String) :
    (vfs.any fun file => file.1 == path) = true ↔ path ∈ vfs.map Prod.fst := by
  rw [List.any_eq_true, List.mem_map]
  refine exists_congr fun file => and_congr_right fun _ => ?_
  rw [beq_iff_eq]

/-- With each path once, the host's insertion is the table's. -/
theorem insertFile_eq_set {vfs : List (String × List Byte)} (h : (vfs.map Prod.fst).Nodup) :
    Cpu.insertFile vfs path data = Tables.set path data vfs := by
  induction vfs with
  | nil => rfl
  | cons file rest ih =>
      rw [List.map_cons, List.nodup_cons] at h
      have hrest := ih h.2
      unfold Cpu.insertFile at hrest ⊢
      rw [Tables.set, List.any_cons, List.map_cons, List.cons_append]
      by_cases heq : file.1 = path
      · subst heq
        have hkeep : (rest.map fun other => if other.1 == file.1 then (file.1, data) else other) =
            rest := by
          refine (List.map_congr_left fun other hother => ?_).trans (List.map_id rest)
          have hne : other.1 ≠ file.1 := fun heq => h.1 (heq ▸ List.mem_map_of_mem hother)
          rw [beq_false_of_ne hne]
          rfl
        rw [beq_self_eq_true, Bool.true_or, if_pos rfl, if_pos rfl, if_pos rfl, hkeep]
      · rw [beq_false_of_ne heq, Bool.false_or, if_neg heq, ← hrest, if_neg Bool.false_ne_true]
        split <;> rfl

theorem find_eq_lookup (vfs : List (String × List Byte)) (path : String) :
    ((vfs.find? fun file => file.1 == path).map fun file => file.2.length) =
      (vfs.lookup path).map List.length := by
  induction vfs with
  | nil => rfl
  | cons file rest ih =>
      obtain ⟨p, data⟩ := file
      rw [List.find?_cons, List.lookup_cons]
      by_cases heq : p = path
      · subst heq
        simp
      · rw [beq_false_of_ne heq, beq_false_of_ne (Ne.symm heq)]
        exact ih

theorem getD_length_lookup (side : HostSide) (path : String) :
    ((side.vfs.lookup path).map List.length).getD 0 = (fileData side path).length := by
  rw [fileData]
  cases side.vfs.lookup path <;> rfl

/-- An upload within the walls sets the file, and any other is refused. -/
theorem uploadVfsFile_files (hok : FilesOk side) (hvfs : c.vfs = side.vfs) :
    (c.uploadVfsFile path data).1.vfs = side.vfs ∨
      data.length ≤ maxVfsFileBytes ∧
      totalBytes side + data.length ≤ maxVfsTotalBytes + (fileData side path).length ∧
      (path ∈ side.vfs.map Prod.fst ∨ side.vfs.length < maxVfsFiles) ∧
      (c.uploadVfsFile path data).1.vfs = Tables.set path data side.vfs := by
  unfold Cpu.uploadVfsFile
  rw [find_eq_lookup, hvfs, getD_length_lookup]
  dsimp only
  split
  · exact .inl hvfs
  next hsize =>
    split
    · exact .inl hvfs
    next htotal =>
      split
      · exact .inl hvfs
      next hplace =>
        refine .inr ⟨by omega, ?_, ?_, insertFile_eq_set hok.paths⟩
        · unfold totalBytes
          omega
        · rw [not_and_or, Nat.not_le] at hplace
          refine hplace.imp_left fun hall => ?_
          rw [← any_eq_true_iff, List.any_eq_true]
          simpa using hall

theorem FilesOk.deleteVfsFile (h : FilesOk side) (hvfs : c.vfs = side.vfs) (path : String) :
    FilesOk (hostVfs side (c.deleteVfsFile path).vfs) := by
  have hsub : (c.deleteVfsFile path).vfs.Sublist side.vfs := hvfs ▸ List.filter_sublist
  refine ⟨h.paths.sublist (hsub.map Prod.fst), fun file hfile => h.fileSize file (hsub.mem hfile),
    ?_, h.fds, h.openLe, h.range, h.offset⟩
  have hsum := (hsub.map fun file => file.2.length).sum_le_sum fun n _ => Nat.zero_le n
  exact hsum.trans h.total

end Uploads

/-- One step of a run: a call, what the host does between two steps of the program, or anything
that has to do with no file. -/
inductive FileStep (deletes : Bool) (side : HostSide) : HostSide → Prop
  | call (call : FileCall) (closed : Bool) (m : Machine) :
      FileStep deletes side (call.stub.run side closed m).2.1
  | upload (c : Cpu) (hvfs : c.vfs = side.vfs) (path : String) (data : List Byte) :
      FileStep deletes side (hostVfs side (c.uploadVfsFile path data).1.vfs)
  | delete (c : Cpu) (hvfs : c.vfs = side.vfs) (path : String) (h : deletes = true) :
      FileStep deletes side (hostVfs side (c.deleteVfsFile path).vfs)
  | other {side' : HostSide} (h : SameFiles side side') : FileStep deletes side side'

/-- The states that so many steps reach from no files. -/
inductive FileRun (deletes : Bool) : Nat → HostSide → Prop
  | start {side : HostSide} (hvfs : side.vfs = []) (hopen : side.openFiles = [])
      (hnext : side.nextFd = 3) : FileRun deletes 0 side
  | step {n : Nat} {side side' : HostSide} (hrun : FileRun deletes n side)
      (h : FileStep deletes side side') : FileRun deletes (n + 1) side'

namespace FileStep

variable {deletes : Bool}

theorem filesOk (h : FileStep deletes side side') (hok : FilesOk side) (hlow : 3 ≤ side.nextFd)
    (hnext : side.nextFd < 2 ^ 32) : FilesOk side' := by
  cases h with
  | call call closed m => exact (call_keeps call hok hnext closed m).change.filesOk hok hlow
  | upload c hvfs path data =>
      rcases uploadVfsFile_files hok hvfs with hsame | ⟨hsize, htotal, -, hset⟩
      · rw [hsame]
        exact hok.congr ⟨rfl, rfl, rfl⟩
      · rw [hset]
        exact hok.setFile hsize htotal
  | delete c hvfs path => exact hok.deleteVfsFile hvfs path
  | other h => exact hok.congr h

theorem filesKept (h : FileStep false side side') (hok : FilesOk side) (hkept : FilesKept side)
    (hnext : side.nextFd < 2 ^ 32) : FilesKept side' := by
  cases h with
  | call call closed m => exact (call_keeps call hok hnext closed m).change.filesKept hkept
  | upload c hvfs path data =>
      rcases uploadVfsFile_files hok hvfs with hsame | ⟨-, -, hplace, hset⟩
      · rw [hsame]
        exact hkept.congr ⟨rfl, rfl, rfl⟩
      · rw [hset]
        exact hkept.setFile hplace
  | delete c hvfs path h => cases h
  | other h => exact hkept.congr h

theorem nextFd (h : FileStep deletes side side') (hok : FilesOk side)
    (hnext : side.nextFd < 2 ^ 32) :
    side.nextFd ≤ side'.nextFd ∧ side'.nextFd ≤ side.nextFd + 1 := by
  cases h with
  | call call closed m => exact (call_keeps call hok hnext closed m).change.nextFd
  | upload c hvfs path data => exact ⟨Nat.le_refl _, Nat.le_succ _⟩
  | delete c hvfs path h => exact ⟨Nat.le_refl _, Nat.le_succ _⟩
  | other h => rw [h.nextFd]; exact ⟨Nat.le_refl _, Nat.le_succ _⟩

end FileStep

theorem FileRun.keeps {deletes : Bool} {n : Nat} (hrun : FileRun deletes n side)
    (hn : n < 2 ^ 32 - 3) :
    FilesOk side ∧ 3 ≤ side.nextFd ∧ side.nextFd ≤ 3 + n ∧ (deletes = false → FilesKept side) := by
  induction hrun with
  | @start side hvfs hopen hnext =>
      refine ⟨⟨?_, ?_, ?_, ?_, ?_, ?_, ?_⟩, by omega, by omega, fun _ => ⟨?_, ?_⟩⟩
      all_goals simp [hvfs, hopen, totalBytes]
  | @step n side side' hrun h ih =>
      obtain ⟨hok, hlow, hhigh, hkept⟩ := ih (by omega)
      have hnext := h.nextFd hok (by omega)
      refine ⟨h.filesOk hok hlow (by omega), by omega, by omega, fun hnone => ?_⟩
      subst hnone
      exact h.filesKept hok (hkept rfl) (by omega)

/-- In every state that calls, uploads and deletions reach in any order, the files keep their
walls: each file and all of them together are within their limits, at most 16 descriptors are
open, each given out once and none of them a standard one, and no offset is past the largest file.
As long as the host deletes nothing there are at most 16 files and every open one is there; a
write to a file that was deleted while open makes it again, whatever their number. -/
theorem files_hold_walls {deletes : Bool} {n : Nat} (hrun : FileRun deletes n side)
    (hn : n < 2 ^ 32 - 3) : FilesOk side ∧ (deletes = false → FilesKept side) :=
  have h := hrun.keeps hn
  ⟨h.1, h.2.2.2⟩

/-- The files after a call on descriptor 3 with these arguments. -/
def callFile (side : HostSide) (asked : FileCall × Word × Word) : HostSide :=
  (asked.1.stub.run side false (fileCall asked.2.1 asked.2.2)).2.1

theorem FileRun.calls {deletes : Bool} {n : Nat} (calls : List (FileCall × Word × Word))
    (hrun : FileRun deletes n side) :
    FileRun deletes (n + calls.length) (calls.foldl callFile side) := by
  induction calls generalizing n side with
  | nil => exact hrun
  | cons asked calls ih =>
      have hstep := hrun.step (.call asked.1 false (fileCall asked.2.1 asked.2.2))
      rw [List.length_cons, ← Nat.succ_add_eq_add_succ]
      exact ih hstep

/-- A program makes the file `ab`, writes two bytes, seeks past them and writes two more. -/
def wroteFile : HostSide :=
  [(FileCall.openat, (0x500000 : Word), (0x41 : Word)), (.write, 0x500000, 2), (.lseek, 5, 0),
    (.write, 0x500000, 2)].foldl callFile .idle

theorem fileRun_wroteFile : FileRun false 4 wroteFile := by
  have hstart : FileRun false 0 .idle := .start rfl rfl rfl
  exact hstart.calls [(.openat, 0x500000, 0x41), (.write, 0x500000, 2), (.lseek, 5, 0),
    (.write, 0x500000, 2)]

theorem files_hold_walls_wrote :
    wroteFile.vfs = [("ab", [0x61, 0x62, 0, 0, 0, 0x61, 0x62])] ∧
      wroteFile.openFiles = [(3, ⟨"ab", 7, true⟩)] ∧ FilesOk wroteFile ∧ FilesKept wroteFile := by
  obtain ⟨hok, hkept⟩ := files_hold_walls fileRun_wroteFile (by decide)
  exact ⟨by decide +kernel, by decide +kernel, hok, hkept rfl⟩

/-- In every such state a call that reports a failure, or that waits for input, leaves every file,
every descriptor and its offset as they were, and one that halts the program leaves the files. -/
theorem failed_call_leaves_files {deletes : Bool} {n : Nat} (hrun : FileRun deletes n side)
    (hn : n < 2 ^ 32 - 3) (call : FileCall) (closed : Bool) (m : Machine) :
    let result := call.stub.run side closed m
    (result.2.2 = .ok .continue → call.Fails m (result.1.regs.gprValue 0 true) →
      SameFiles side result.2.1) ∧
    (result.2.2 = .ok .needInput → SameFiles side result.2.1) ∧
    ∀ e, result.2.2 = .error e → result.2.1.vfs = side.vfs := by
  obtain ⟨hok, hlow, hhigh, -⟩ := hrun.keeps hn
  have h := call_keeps call hok (by omega) closed m
  exact ⟨h.failed, h.waits, h.halts⟩

/-- A seek to before the start of `ab` fails, and a write from an unmapped address halts. -/
theorem failed_call_leaves_files_wrote :
    SameFiles wroteFile (sysLseek.run wroteFile false (fileCall (-1) 0)).2.1 ∧
      (sysWrite.run wroteFile false (fileCall 0x20 2)).2.1.vfs = wroteFile.vfs := by
  have hseeks : (sysLseek.run wroteFile false (fileCall (-1) 0)).2.2 = .ok .continue ∧
      ((sysLseek.run wroteFile false (fileCall (-1) 0)).1.regs.gprValue 0 true).toInt < 0 := by
    decide +kernel
  have hhalts : (sysWrite.run wroteFile false (fileCall 0x20 2)).2.2 =
      .error (.memoryFault 0x20 .read) := by
    decide +kernel
  have hseek := failed_call_leaves_files fileRun_wroteFile (by decide) .lseek false
    (fileCall (-1) 0)
  have hwrite := failed_call_leaves_files fileRun_wroteFile (by decide) .write false
    (fileCall 0x20 2)
  exact ⟨hseek.1 hseeks.1 hseeks.2, hwrite.2.2 _ hhalts⟩

end Hosted

end Playground
