/-
The virtual files over whole runs: the walls hold after any calls on any arguments, and a call
that reports a failure has left every file as it was.
-/
import Playground.Hosted.OpenFiles

namespace Playground

namespace Hosted

open Exec

variable {side side' : HostSide}

/-- The files and the descriptors are as they were. -/
structure SameFiles (side side' : HostSide) : Prop where
  vfs : side'.vfs = side.vfs
  openFiles : side'.openFiles = side.openFiles
  nextFd : side'.nextFd = side.nextFd

/-- The side state with a file set to some bytes. -/
def withFile (side : HostSide) (path : String) (data : List Byte) : HostSide :=
  { side with vfs := Tables.set path data side.vfs }

namespace SameFiles

theorem refl (side : HostSide) : SameFiles side side := ⟨rfl, rfl, rfl⟩

variable {side₁ : HostSide}

theorem symm (h : SameFiles side side') : SameFiles side' side :=
  ⟨h.vfs.symm, h.openFiles.symm, h.nextFd.symm⟩

theorem trans (h : SameFiles side side₁) (h' : SameFiles side₁ side') : SameFiles side side' :=
  ⟨h'.vfs.trans h.vfs, h'.openFiles.trans h.openFiles, h'.nextFd.trans h.nextFd⟩

theorem openFile (h : SameFiles side side') (fd : Nat) :
    openFile side' fd = Hosted.openFile side fd := by
  rw [Hosted.openFile, Hosted.openFile, h.openFiles]

theorem fileData (h : SameFiles side side') (path : String) :
    fileData side' path = Hosted.fileData side path := by
  rw [Hosted.fileData, Hosted.fileData, h.vfs]

theorem totalBytes (h : SameFiles side side') : totalBytes side' = Hosted.totalBytes side := by
  rw [Hosted.totalBytes, Hosted.totalBytes, h.vfs]

theorem withFile (h : SameFiles side side') (path : String) (data : List Byte) :
    SameFiles (withFile side path data) (Hosted.withFile side' path data) :=
  ⟨by simp only [Hosted.withFile, h.vfs], h.openFiles, h.nextFd⟩

theorem moved (h : SameFiles side side') (fd : Nat) (file : OpenFile) (o : Nat) :
    SameFiles (moved side fd file o) (Hosted.moved side' fd file o) :=
  ⟨h.vfs, by simp only [Hosted.moved, h.openFiles], h.nextFd⟩

theorem stored (h : SameFiles side side') (fd : Nat) (file : OpenFile) (bytes : List Byte) :
    SameFiles (stored side fd file bytes) (Hosted.stored side' fd file bytes) :=
  ⟨by simp only [Hosted.stored, h.vfs, h.fileData], by simp only [Hosted.stored, h.openFiles],
    h.nextFd⟩

theorem addOpen (h : SameFiles side side') (path : String) (writable append : Bool) :
    SameFiles (addOpen path writable append side).1
      (Hosted.addOpen path writable append side').1 :=
  ⟨h.vfs, by simp only [Hosted.addOpen, h.openFiles, h.nextFd, h.fileData],
    by simp only [Hosted.addOpen, h.nextFd]⟩

theorem closeFd (h : SameFiles side side') (fd : Nat) :
    SameFiles (closeFd fd side).1 (Hosted.closeFd fd side').1 :=
  ⟨h.vfs, by simp only [Hosted.closeFd, h.openFiles], h.nextFd⟩

end SameFiles

/-- The walls of the files, and of the descriptors on them. -/
structure FilesOk (side : HostSide) : Prop where
  paths : (side.vfs.map Prod.fst).Nodup
  fileSize : ∀ file ∈ side.vfs, file.2.length ≤ maxVfsFileBytes
  total : totalBytes side ≤ maxVfsTotalBytes
  fds : (side.openFiles.map Prod.fst).Nodup
  openLe : side.openFiles.length ≤ maxOpenFiles
  range : ∀ file ∈ side.openFiles, 3 ≤ file.1 ∧ file.1 < side.nextFd
  offset : ∀ file ∈ side.openFiles, file.2.offset ≤ maxVfsFileBytes

/-- What holds as long as the host takes no file away. -/
structure FilesKept (side : HostSide) : Prop where
  count : side.vfs.length ≤ maxVfsFiles
  there : ∀ file ∈ side.openFiles, file.2.path ∈ side.vfs.map Prod.fst

theorem FilesOk.congr (h : FilesOk side) (hsame : SameFiles side side') : FilesOk side' := by
  obtain ⟨hvfs, hopen, hnext⟩ := hsame
  have htotal : totalBytes side' = totalBytes side := by rw [totalBytes, hvfs, totalBytes]
  exact ⟨hvfs ▸ h.paths, hvfs ▸ h.fileSize, htotal ▸ h.total, hopen ▸ h.fds, hopen ▸ h.openLe,
    hopen ▸ hnext ▸ h.range, hopen ▸ h.offset⟩

theorem FilesKept.congr (h : FilesKept side) (hsame : SameFiles side side') : FilesKept side' := by
  obtain ⟨hvfs, hopen, -⟩ := hsame
  exact ⟨hvfs ▸ h.count, hopen ▸ hvfs ▸ h.there⟩

section Files

variable {path : String} {data : List Byte}

/-- A file of an allowed size stored under a path, within the total. -/
theorem FilesOk.setFile (h : FilesOk side) (hsize : data.length ≤ maxVfsFileBytes)
    (htotal : totalBytes side + data.length ≤
      maxVfsTotalBytes + (fileData side path).length) :
    FilesOk (withFile side path data) := by
  refine ⟨Tables.nodup_keys_set h.paths, fun file hfile => ?_, ?_, h.fds, h.openLe, h.range,
    h.offset⟩
  · rcases Tables.mem_set hfile with rfl | hfile
    · exact hsize
    · exact h.fileSize file hfile
  · have hsum := Tables.sum_set List.length path data side.vfs
    have hdata : ((side.vfs.lookup path).map List.length).getD 0 = (fileData side path).length := by
      rw [fileData]
      cases side.vfs.lookup path <;> rfl
    rw [hdata] at hsum
    unfold totalBytes at htotal ⊢
    show ((Tables.set path data side.vfs).map fun file => file.2.length).sum ≤ _
    omega

theorem FilesKept.setFile (h : FilesKept side)
    (hplace : path ∈ side.vfs.map Prod.fst ∨ side.vfs.length < maxVfsFiles) :
    FilesKept (withFile side path data) := by
  constructor
  · show (Tables.set path data side.vfs).length ≤ maxVfsFiles
    rw [Tables.length_set]
    have hcount := h.count
    split
    · exact hcount
    · rcases hplace with hmem | hlt
      · contradiction
      · omega
  · intro file hfile
    show file.2.path ∈ (Tables.set path data side.vfs).map Prod.fst
    rw [Tables.keys_set]
    split
    · exact h.there file hfile
    · exact List.mem_append_left _ (h.there file hfile)

end Files

section Descriptors

variable {fd : Nat} {file : OpenFile}

theorem mem_openFiles (h : openFile side fd = some file) : (fd, file) ∈ side.openFiles :=
  Tables.mem_of_lookup h

theorem FilesOk.setOffset (h : FilesOk side) (hopen : openFile side fd = some file) {o : Nat}
    (ho : o ≤ maxVfsFileBytes) :
    FilesOk { side with openFiles := Tables.set fd { file with offset := o } side.openFiles } := by
  have hmem := mem_openFiles hopen
  have hkey : fd ∈ side.openFiles.map Prod.fst := List.mem_map_of_mem (f := Prod.fst) hmem
  refine ⟨h.paths, h.fileSize, h.total, Tables.nodup_keys_set h.fds, ?_, fun entry hentry => ?_,
    fun entry hentry => ?_⟩
  · show (Tables.set fd _ side.openFiles).length ≤ maxOpenFiles
    rw [Tables.length_set, if_pos hkey]
    exact h.openLe
  · rcases Tables.mem_set hentry with rfl | hentry
    · exact h.range (fd, file) hmem
    · exact h.range entry hentry
  · rcases Tables.mem_set hentry with rfl | hentry
    · exact ho
    · exact h.offset entry hentry

theorem FilesKept.setOffset (h : FilesKept side) (hopen : openFile side fd = some file)
    (o : Nat) : FilesKept { side with
      openFiles := Tables.set fd { file with offset := o } side.openFiles } := by
  refine ⟨h.count, fun entry hentry => ?_⟩
  rcases Tables.mem_set hentry with rfl | hentry
  · exact h.there (fd, file) (mem_openFiles hopen)
  · exact h.there entry hentry

/-- One descriptor more. -/
theorem FilesOk.addOpen (h : FilesOk side) (hnext : 3 ≤ side.nextFd)
    (hroom : side.openFiles.length < maxOpenFiles) (path : String) (writable append : Bool) :
    FilesOk (addOpen path writable append side).1 := by
  have hnew : side.nextFd ∉ side.openFiles.map Prod.fst := by
    intro hmem
    obtain ⟨entry, hentry, heq⟩ := List.mem_map.mp hmem
    exact absurd (h.range entry hentry).2 (by omega)
  refine ⟨h.paths, h.fileSize, h.total, Tables.nodup_keys_set h.fds, ?_, fun entry hentry => ?_,
    fun entry hentry => ?_⟩
  · show (Tables.set side.nextFd _ side.openFiles).length ≤ maxOpenFiles
    rw [Tables.length_set, if_neg hnew]
    exact hroom
  · show 3 ≤ entry.1 ∧ entry.1 < side.nextFd + 1
    rcases Tables.mem_set hentry with rfl | hentry
    · exact ⟨hnext, Nat.lt_succ_self _⟩
    · exact (h.range entry hentry).imp_right Nat.lt_succ_of_lt
  · rcases Tables.mem_set hentry with rfl | hentry
    · show (if append then (fileData side path).length else 0) ≤ maxVfsFileBytes
      split
      · rw [fileData]
        cases hlookup : side.vfs.lookup path with
        | none => exact Nat.zero_le _
        | some data => exact h.fileSize (path, data) (Tables.mem_of_lookup hlookup)
      · exact Nat.zero_le _
    · exact h.offset entry hentry

theorem FilesKept.addOpen (h : FilesKept side) {path : String}
    (hpath : path ∈ side.vfs.map Prod.fst) (writable append : Bool) :
    FilesKept (addOpen path writable append side).1 := by
  refine ⟨h.count, fun entry hentry => ?_⟩
  rcases Tables.mem_set hentry with rfl | hentry
  · exact hpath
  · exact h.there entry hentry

theorem FilesOk.closeFd (h : FilesOk side) (fd : Nat) : FilesOk (closeFd fd side).1 := by
  refine ⟨h.paths, h.fileSize, h.total, ?_, ?_, fun file hfile => ?_, fun file hfile => ?_⟩
  · exact h.fds.sublist (List.filter_sublist.map Prod.fst)
  · exact (List.length_filter_le _ _).trans h.openLe
  · exact h.range file (List.mem_filter.mp hfile).1
  · exact h.offset file (List.mem_filter.mp hfile).1

theorem FilesKept.closeFd (h : FilesKept side) (fd : Nat) : FilesKept (closeFd fd side).1 :=
  ⟨h.count, fun file hfile => h.there file (List.mem_filter.mp hfile).1⟩

end Descriptors

/-- What one call does to the files and the descriptors. -/
inductive FileChange (side side' : HostSide) : Prop
  | same (h : SameFiles side side')
  | stored {fd : Nat} {file : OpenFile} {bytes : List Byte} (hopen : openFile side fd = some file)
      (hfits : Fits side file.path file.offset bytes.length)
      (h : SameFiles (stored side fd file bytes) side')
  | moved {fd o : Nat} {file : OpenFile} (hopen : openFile side fd = some file)
      (ho : o ≤ maxVfsFileBytes ∨ o ≤ max file.offset (fileData side file.path).length)
      (h : SameFiles (moved side fd file o) side')
  | opened {path : String} {writable append : Bool}
      (hroom : side.openFiles.length < maxOpenFiles) (hpath : path ∈ side.vfs.map Prod.fst)
      (h : SameFiles (addOpen path writable append side).1 side')
  | made {path : String} {writable append : Bool}
      (hroom : side.openFiles.length < maxOpenFiles)
      (hplace : path ∈ side.vfs.map Prod.fst ∨ side.vfs.length < maxVfsFiles)
      (h : SameFiles (addOpen path writable append (withFile side path [])).1 side')
  | closed {fd : Nat} (h : SameFiles (closeFd fd side).1 side')

theorem length_fileData_le (h : FilesOk side) (path : String) :
    (fileData side path).length ≤ maxVfsFileBytes := by
  rw [fileData]
  cases hlookup : side.vfs.lookup path with
  | none => exact Nat.zero_le _
  | some data => exact h.fileSize (path, data) (Tables.mem_of_lookup hlookup)

namespace FileChange

/-- The walls hold after any change. -/
theorem filesOk (h : FileChange side side') (hok : FilesOk side) (hnext : 3 ≤ side.nextFd) :
    FilesOk side' := by
  cases h with
  | same h => exact hok.congr h
  | @stored fd file bytes hopen hfits h =>
      refine FilesOk.congr ?_ h
      have hlen := Splice.length_splice (0 : Byte) (fileData side file.path) file.offset bytes
      have hdata := length_fileData_le hok file.path
      obtain ⟨hsize, htotal⟩ := hfits
      have hset := hok.setFile
        (show (Splice.splice 0 (fileData side file.path) file.offset bytes).length ≤ _ by omega)
        (show _ ≤ maxVfsTotalBytes + (fileData side file.path).length by omega)
      exact hset.setOffset hopen hsize
  | @moved fd o file hopen ho h =>
      refine (hok.setOffset hopen ?_).congr h
      have hdata := length_fileData_le hok file.path
      have hoffset := hok.offset (fd, file) (mem_openFiles hopen)
      simp only at hoffset
      omega
  | opened hroom hpath h => exact (hok.addOpen hnext hroom _ _ _).congr h
  | @made path writable append hroom hplace h =>
      have hset : FilesOk (withFile side path []) :=
        hok.setFile (Nat.zero_le _) (hok.total.trans (Nat.le_add_right _ _))
      exact (hset.addOpen hnext hroom _ _ _).congr h
  | closed h => exact (hok.closeFd _).congr h

/-- No change takes a file away. -/
theorem filesKept (h : FileChange side side') (hkept : FilesKept side) : FilesKept side' := by
  cases h with
  | same h => exact hkept.congr h
  | @stored fd file bytes hopen hfits h =>
      have hset : FilesKept (withFile side file.path
          (Splice.splice 0 (fileData side file.path) file.offset bytes)) :=
        hkept.setFile (.inl (hkept.there (fd, file) (mem_openFiles hopen)))
      exact FilesKept.congr (hset.setOffset hopen _) h
  | moved hopen ho h => exact (hkept.setOffset hopen _).congr h
  | opened hroom hpath h => exact (hkept.addOpen hpath _ _).congr h
  | @made path writable append hroom hplace h =>
      have hset : FilesKept (withFile side path []) := hkept.setFile hplace
      refine (hset.addOpen ?_ _ _).congr h
      show path ∈ (Tables.set path [] side.vfs).map Prod.fst
      rw [Tables.mem_keys_iff, Tables.lookup_set_self]
      rfl
  | closed h => exact (hkept.closeFd _).congr h

/-- A change gives out at most one descriptor, the next. -/
theorem nextFd (h : FileChange side side') :
    side.nextFd ≤ side'.nextFd ∧ side'.nextFd ≤ side.nextFd + 1 := by
  cases h with
  | same h => rw [h.nextFd]; exact ⟨Nat.le_refl _, Nat.le_succ _⟩
  | stored hopen hfits h => rw [h.nextFd]; exact ⟨Nat.le_refl _, Nat.le_succ _⟩
  | moved hopen ho h => rw [h.nextFd]; exact ⟨Nat.le_refl _, Nat.le_succ _⟩
  | opened hroom hpath h => rw [h.nextFd]; exact ⟨Nat.le_succ _, Nat.le_refl _⟩
  | made hroom hplace h => rw [h.nextFd]; exact ⟨Nat.le_succ _, Nat.le_refl _⟩
  | closed h => rw [h.nextFd]; exact ⟨Nat.le_refl _, Nat.le_succ _⟩

/-- Only the files and the descriptors before the call matter. -/
theorem of_same {side₁ : HostSide} (hsame : SameFiles side side₁) (h : FileChange side₁ side') :
    FileChange side side' := by
  cases h with
  | same h => exact .same (hsame.trans h)
  | @stored fd file bytes hopen hfits h =>
      refine .stored ((hsame.openFile fd).symm.trans hopen) ?_
        ((hsame.stored fd file bytes).trans h)
      rwa [Fits, hsame.fileData, hsame.totalBytes] at hfits
  | @moved fd o file hopen ho h =>
      rw [hsame.fileData] at ho
      exact .moved ((hsame.openFile fd).symm.trans hopen) ho ((hsame.moved fd file o).trans h)
  | @opened path writable append hroom hpath h =>
      exact .opened (hsame.openFiles ▸ hroom) (hsame.vfs ▸ hpath)
        ((hsame.addOpen path writable append).trans h)
  | @made path writable append hroom hplace h =>
      exact .made (hsame.openFiles ▸ hroom) (hsame.vfs ▸ hplace)
        (((hsame.withFile path []).addOpen path writable append).trans h)
  | @closed fd h => exact .closed ((hsame.closeFd fd).trans h)

end FileChange

section Operations

variable {fd : Nat} {offset : Word} {whence : Nat}

theorem writeToFd_files (w : Word) (bytes : List Byte) (side : HostSide) :
    SameFiles side (writeToFd w bytes side).1 ∨
      ∃ file, openFile side (descriptor w) = some file ∧
        Fits side file.path file.offset bytes.length ∧
        writeToFd w bytes side = (stored side (descriptor w) file bytes, (bytes.length : Int)) := by
  unfold writeToFd
  split
  · exact .inl ⟨rfl, rfl, rfl⟩
  split
  · exact .inl ⟨rfl, rfl, rfl⟩
  split
  next => exact .inl (.refl side)
  next file hopen =>
    split
    · exact .inl (.refl side)
    split
    · exact .inl (.refl side)
    next hsize =>
      simp only
      split
      · exact .inl (.refl side)
      next htotal => exact .inr ⟨file, hopen, ⟨by omega, by omega⟩, rfl⟩

theorem change_writeToFd (w : Word) (bytes : List Byte) (side : HostSide) :
    FileChange side (writeToFd w bytes side).1 := by
  rcases writeToFd_files w bytes side with hsame | ⟨file, hopen, hfits, hstored⟩
  · exact .same hsame
  · rw [hstored]
    exact .stored hopen hfits (.refl _)

theorem seekTo_files (fd : Nat) (offset : Word) (whence : Nat) (side : HostSide) :
    ((seekTo fd offset whence side).1 = side ∧ (seekTo fd offset whence side).2 < 0) ∨
      ∃ file o, openFile side fd = some file ∧ o ≤ maxVfsFileBytes ∧
        seekTo fd offset whence side = (moved side fd file o, (o : Int)) := by
  cases hopen : openFile side fd with
  | none =>
      left
      rw [seekTo, hopen]
      exact ⟨rfl, Int.negSucc_lt_zero 8⟩
  | some file =>
      rcases seekTo_cases hopen offset whence with ⟨o, ho, hseek⟩ | hseek
      · exact .inr ⟨file, o, rfl, ho, hseek⟩
      · rw [hseek]
        exact .inl ⟨rfl, Int.negSucc_lt_zero 21⟩

theorem change_seekTo (fd : Nat) (offset : Word) (whence : Nat) (side : HostSide) :
    FileChange side (seekTo fd offset whence side).1 := by
  rcases seekTo_files fd offset whence side with ⟨hsame, -⟩ | ⟨file, o, hopen, ho, hseek⟩
  · rw [hsame]
    exact .same (.refl side)
  · rw [hseek]
    exact .moved hopen (.inl ho) (.refl _)

variable {path : String} {writable create truncate append : Bool}

/-- An open is refused with nothing done, or takes the next descriptor. -/
theorem openVfs_files (path : String) (writable create truncate append : Bool) (side : HostSide) :
    (∃ errno, openVfs path writable create truncate append side = (side, .error errno)) ∨
      FileChange side (openVfs path writable create truncate append side).1 ∧
        (openVfs path writable create truncate append side).2 = .ok side.nextFd := by
  unfold openVfs
  split
  · exact .inl ⟨eNoent, rfl⟩
  split
  · exact .inl ⟨eMfile, rfl⟩
  next hroom =>
    have hroom : side.openFiles.length < maxOpenFiles := Nat.lt_of_not_le hroom
    cases hlookup : side.vfs.lookup path with
    | none =>
        simp only
        split
        · exact .inl ⟨eNoent, rfl⟩
        split
        · exact .inl ⟨eNospc, rfl⟩
        next hcount =>
          exact .inr ⟨.made hroom (.inr (Nat.lt_of_not_le hcount)) (.refl _), rfl⟩
    | some data =>
        have hpath : path ∈ side.vfs.map Prod.fst := by
          rw [Tables.mem_keys_iff, hlookup]
          rfl
        simp only
        split
        · exact .inr ⟨.made hroom (.inl hpath) (.refl _), rfl⟩
        · exact .inr ⟨.opened hroom hpath (.refl _), rfl⟩

/-- A descriptor that was not open cannot be closed. -/
theorem closeFd_files (fd : Nat) (side : HostSide) :
    (closeFd fd side).2 = false → SameFiles side (closeFd fd side).1 := by
  intro h
  have hkey : fd ∉ side.openFiles.map Prod.fst := by
    rw [Tables.mem_keys_iff]
    exact Bool.eq_false_iff.mp h
  refine ⟨rfl, List.filter_eq_self.mpr fun file hfile => ?_, rfl⟩
  simp only [bne_iff_ne, ne_eq]
  rintro rfl
  exact hkey (List.mem_map_of_mem hfile)

/-- Reading a line moves the offset over it, and an empty one leaves everything. -/
theorem takeLineFromFile_files (fd limit : Nat) (side : HostSide) :
    FileChange side (takeLineFromFile fd limit side).1 ∧
      (takeLineFromFile fd limit side).1.vfs = side.vfs ∧
      ((takeLineFromFile fd limit side).2 = [] →
        SameFiles side (takeLineFromFile fd limit side).1) := by
  cases hopen : openFile side fd with
  | none =>
      rw [takeLineFromFile, hopen]
      exact ⟨.same (.refl side), rfl, fun _ => .refl side⟩
  | some file =>
      rw [takeLineFromFile, hopen]
      dsimp only
      generalize hline : List.take _ ((fileData side file.path).drop file.offset) = line
      have hlen : line.length ≤ (fileData side file.path).length - file.offset := by
        rw [← hline, List.length_take, List.length_drop]
        exact Nat.min_le_right _ _
      refine ⟨.moved hopen (.inr ?_) (.refl _), rfl, fun hnil => ⟨rfl, ?_, rfl⟩⟩
      · omega
      · subst hnil
        exact Tables.set_of_lookup hopen

end Operations

end Hosted

end Playground
