/-
Stepping the register file back: whatever calls a step makes on it, undoing the
step's log restores every register and the clobber bookkeeping.
-/
import Playground.Machine.Registers

namespace Playground

/-- The small fields as a log saves them, with the edits `edits`. -/
def RegisterState.saved (s : RegisterState) (edits : List RegEdit) : RegUndo :=
  ⟨s.sp, s.pc, s.nzcv, s.clobbered, s.clobberedReads, s.narrow, edits⟩

/-- One call the executor or a library stub makes on the register file.  Its
fields are private, so these are the only ways a step can change it. -/
inductive RegCall
  | readGpr (index : Nat) (sf : Bool)
  | writeGpr (index : Nat) (sf : Bool) (value : Word)
  | writeSp (value : Word)
  | writePc (value : Word)
  | assignNzcv (flags : NzcvFlags)
  | setNzcv (flags : NzcvFlags)
  | conditionHolds (cond : Condition)
  | carryFlag
  | readFprBits (index : Nat)
  | writeFprBits (index : Nat) (value : Word)
  | writeFprQ (index : Nat) (value : BitVec 128)
  | writeFprScalar (index bytes : Nat) (value : Word)
  | writeFprLane (index esizeBytes lane : Nat) (value : Word)

def RegCall.run (r : RegisterFile) : RegCall → RegisterFile
  | .readGpr index sf => (r.readGpr index sf).1
  | .writeGpr index sf value => r.writeGpr index sf value
  | .writeSp value => r.writeSp value
  | .writePc value => r.writePc value
  | .assignNzcv flags => r.assignNzcv flags
  | .setNzcv flags => r.setNzcv flags
  | .conditionHolds cond => (r.conditionHolds cond).1
  | .carryFlag => r.carryFlag.1
  | .readFprBits index => (r.readFprBits index).1
  | .writeFprBits index value => r.writeFprBits index value
  | .writeFprQ index value => r.writeFprQ index value
  | .writeFprScalar index bytes value => r.writeFprScalar index bytes value
  | .writeFprLane index esizeBytes lane value => r.writeFprLane index esizeBytes lane value

namespace RegisterFile

/-- `r` is partway through a step that began in `s`: recording is on, the log
holds `s`'s small fields, and reverting its edits gives `s`'s arrays. -/
structure Recorded (s : RegisterState) (r : RegisterFile) : Prop where
  recording : r.recording = true
  saved : r.undo = s.saved r.undo.edits
  arrays : Journal.Undoes RegArrays.revert s.toRegArrays r.undo.edits r.toRegArrays

/-- What one call may do to the file: append edits to the log (only while
recording) that revert its arrays to what they were. -/
structure Logs (r r' : RegisterFile) (edits : List RegEdit) : Prop where
  recording : r'.recording = r.recording
  undo : r'.undo = if r.recording then
      { r.undo with edits := r.undo.edits ++ edits } else r.undo
  arrays : Journal.Undoes RegArrays.revert r.toRegArrays edits r'.toRegArrays

theorem Logs.refl (r : RegisterFile) : Logs r r [] := by
  refine ⟨rfl, ?_, rfl⟩
  simp

theorem Logs.trans {r r' r'' : RegisterFile} {edits edits' : List RegEdit}
    (first : Logs r r' edits) (second : Logs r' r'' edits') :
    Logs r r'' (edits ++ edits') := by
  refine ⟨second.recording.trans first.recording, ?_, ?_⟩
  · rw [second.undo, first.recording, first.undo]
    by_cases h : r.recording <;> simp [h]
  · exact first.arrays.trans second.arrays

/-- A call that only touches the small fields logs nothing. -/
theorem Logs.small {r r' : RegisterFile} (harrays : r'.toRegArrays = r.toRegArrays)
    (hundo : r'.undo = r.undo) (hrecording : r'.recording = r.recording) :
    Logs r r' [] := by
  refine ⟨hrecording, ?_, harrays⟩
  simp [hundo]

theorem Recorded.logs {s : RegisterState} {r r' : RegisterFile} {edits : List RegEdit}
    (hr : Recorded s r) (hlogs : Logs r r' edits) : Recorded s r' := by
  have hundo : r'.undo = { r.undo with edits := r.undo.edits ++ edits } := by
    rw [hlogs.undo, if_pos hr.recording]
  refine ⟨hlogs.recording.trans hr.recording, ?_, ?_⟩
  · rw [hundo, hr.saved]
    rfl
  · rw [hundo]
    exact hr.arrays.trans hlogs.arrays

@[simp] theorem log_recording (r : RegisterFile) (edit : RegEdit) :
    (r.log edit).recording = r.recording := by
  unfold log
  split <;> rfl

@[simp] theorem log_toRegArrays (r : RegisterFile) (edit : RegEdit) :
    (r.log edit).toRegArrays = r.toRegArrays := by
  unfold log
  split <;> rfl

theorem log_undo (r : RegisterFile) (edit : RegEdit) :
    (r.log edit).undo = if r.recording then
      { r.undo with edits := r.undo.edits ++ [edit] } else r.undo := by
  unfold log
  split <;> rfl

theorem logs_markRead (r : RegisterFile) (x d : BitVec 32) : Logs r (r.markRead x d) [] :=
  Logs.small rfl rfl rfl

theorem logs_markFlagsRead (r : RegisterFile) : Logs r r.markFlagsRead [] := by
  unfold markFlagsRead
  split
  · exact logs_markRead r _ _
  · exact Logs.refl r

theorem logs_writeGpr (r : RegisterFile) (index : Nat) (sf : Bool) (value : Word) :
    ∃ edits, Logs r (r.writeGpr index sf value) edits := by
  by_cases h : index < 31
  · refine ⟨[.gpr index (r.gpr ⟨index, h⟩)], ?_, ?_, ?_⟩
    · simp [writeGpr, h]
    · simp [writeGpr, h, log_undo]
    · simp [writeGpr, h, Journal.Undoes, RegArrays.revert]
  · exact ⟨[], by simpa [writeGpr, h] using Logs.refl r⟩

theorem logs_storeFpr (r : RegisterFile) (index : Nat) (low : Bool) (value : BitVec 128) :
    ∃ edits, Logs r (r.storeFpr index low value) edits := by
  by_cases h : index < 32
  · have hindex : Fin.ofNat 32 index = ⟨index, h⟩ := Fin.ext (Nat.mod_eq_of_lt h)
    have hlog : ∀ q : RegisterFile, q.logFpr index = q.log (.fpr index (q.fpr ⟨index, h⟩)) :=
      fun q => by rw [logFpr, hindex]
    refine ⟨[.fpr index (r.fpr ⟨index, h⟩)], ?_, ?_, ?_⟩
    · cases low <;> simp [storeFpr, h, hlog, unclobberFpr]
    · cases low <;> simp [storeFpr, h, hlog, unclobberFpr, log_undo]
    · have hrevert : ∀ a : RegArrays, RegArrays.revert (.fpr index (r.fpr ⟨index, h⟩)) a =
          { a with fpr := Function.update a.fpr ⟨index, h⟩ (r.fpr ⟨index, h⟩) } :=
        fun a => by rw [RegArrays.revert, hindex]
      cases low <;> simp [storeFpr, h, hlog, unclobberFpr, Journal.Undoes, hrevert]
  · exact ⟨[], by simpa [storeFpr, h] using Logs.refl r⟩

theorem logs_setOrigin (r : RegisterFile) (code : Nat) (origin : ClobberOrigin) :
    ∃ edits, Logs r (r.setOrigin code origin) edits := by
  refine ⟨[.origin code (r.clobberOrigins (Fin.ofNat 64 code))], ?_, ?_, ?_⟩
  · simp [setOrigin]
  · simp [setOrigin, log_undo]
  · simp [setOrigin, Journal.Undoes, RegArrays.revert]

/-- Every call of a step logs what it replaces. -/
theorem logs_run (r : RegisterFile) (call : RegCall) :
    ∃ edits, Logs r (call.run r) edits := by
  cases call with
  | readGpr index sf =>
      simp only [RegCall.run, readGpr]
      split
      · exact ⟨[], logs_markRead r _ _⟩
      · exact ⟨[], Logs.refl r⟩
  | writeGpr index sf value => exact logs_writeGpr r index sf value
  | writeSp value => exact ⟨[], Logs.small rfl rfl rfl⟩
  | writePc value => exact ⟨[], Logs.small rfl rfl rfl⟩
  | assignNzcv flags => exact ⟨[], Logs.small rfl rfl rfl⟩
  | setNzcv flags => exact ⟨[], Logs.small rfl rfl rfl⟩
  | conditionHolds cond =>
      simp only [RegCall.run, conditionHolds]
      split
      · exact ⟨[], Logs.refl r⟩
      · exact ⟨[], logs_markFlagsRead r⟩
  | carryFlag => exact ⟨[], logs_markFlagsRead r⟩
  | readFprBits index =>
      simp only [RegCall.run, readFprBits]
      split
      · exact ⟨[], logs_markRead r _ _⟩
      · exact ⟨[], Logs.refl r⟩
  | writeFprBits index value => exact logs_storeFpr r index true _
  | writeFprQ index value => exact logs_storeFpr r index true _
  | writeFprScalar index bytes value => exact logs_storeFpr r index true _
  | writeFprLane index esizeBytes lane value =>
      simp only [RegCall.run, writeFprLane]
      split
      · exact ⟨[], Logs.refl r⟩
      · exact logs_storeFpr r index _ _

theorem logs_markCalleeSaved (r : RegisterFile) (mask : BitVec 32) (retPc : Word) :
    ∃ edits, Logs r (r.markCalleeSaved mask retPc) edits := by
  have hfold : ∀ (codes : List Nat) (r : RegisterFile), ∃ edits, Logs r
      (codes.foldl (fun r code => if mask.getLsbD code then
        r.setOrigin code ⟨code, retPc.setWidth 32, 0⟩ else r) r) edits := by
    intro codes
    induction codes with
    | nil => exact fun r => ⟨[], Logs.refl r⟩
    | cons code codes ih =>
        intro r
        simp only [List.foldl_cons]
        by_cases hbit : mask.getLsbD code
        · obtain ⟨first, hfirst⟩ := logs_setOrigin r code ⟨code, retPc.setWidth 32, 0⟩
          obtain ⟨rest, hrest⟩ := ih (r.setOrigin code ⟨code, retPc.setWidth 32, 0⟩)
          exact ⟨first ++ rest, by simpa [hbit] using hfirst.trans hrest⟩
        · simpa [hbit] using ih r
  obtain ⟨edits, hedits⟩ := hfold ((List.range 10).map (· + 19)) r
  exact ⟨edits ++ [], hedits.trans (Logs.small rfl rfl rfl)⟩

theorem logs_carryClobber (r : RegisterFile) (source dest : Nat) (pc : BitVec 32) :
    ∃ edits, Logs r (r.carryClobber source dest pc) edits := by
  unfold carryClobber
  obtain ⟨edits, hedits⟩ := logs_setOrigin r dest
    (if (r.clobberOrigins (Fin.ofNat 64 source)).copiedAt = 0 then
      { r.clobberOrigins (Fin.ofNat 64 source) with copiedAt := pc }
      else r.clobberOrigins (Fin.ofNat 64 source))
  refine ⟨edits ++ [], hedits.trans ?_⟩
  by_cases hdest : dest < 32
  · simp only [hdest, ↓reduceIte]
    exact Logs.small rfl rfl rfl
  · simp only [hdest, ↓reduceIte]
    exact Logs.small rfl rfl rfl

theorem logs_takeClobberedReads (r : RegisterFile) :
    Logs r r.takeClobberedReads.1 [] :=
  Logs.small rfl rfl rfl

/-- Reverting a logged run of entries of one array leaves the logged values. -/
theorem revertAll_gprLog (a : RegArrays) (old : Fin 31 → Word) (codes : List (Fin 31)) :
    Journal.revertAll RegArrays.revert
      (codes.map fun i : Fin 31 => RegEdit.gpr i.val (old i)) a =
      { a with gpr := fun i => if i ∈ codes then old i else a.gpr i } := by
  induction codes with
  | nil => simp
  | cons code codes ih =>
      rw [List.map_cons, Journal.revertAll_cons, ih]
      simp only [RegArrays.revert, Fin.is_lt, ↓reduceDIte, RegArrays.mk.injEq, and_true]
      funext i
      by_cases hi : i = code
      · simp [hi]
      · simp [hi]

theorem revertAll_fprLog (a : RegArrays) (old : Fin 32 → BitVec 128)
    (codes : List (Fin 32)) :
    Journal.revertAll RegArrays.revert
      (codes.map fun i : Fin 32 => RegEdit.fpr i.val (old i)) a =
      { a with fpr := fun i => if i ∈ codes then old i else a.fpr i } := by
  induction codes with
  | nil => simp
  | cons code codes ih =>
      rw [List.map_cons, Journal.revertAll_cons, ih]
      simp only [RegArrays.revert, RegArrays.mk.injEq, and_true, true_and]
      funext i
      by_cases hi : i = code
      · simp [hi]
      · simp [hi]

theorem revertAll_originLog (a : RegArrays) (old : Fin 64 → ClobberOrigin)
    (codes : List (Fin 64)) :
    Journal.revertAll RegArrays.revert
      (codes.map fun i : Fin 64 => RegEdit.origin i.val (old i)) a =
      { a with clobberOrigins := fun i =>
          if i ∈ codes then old i else a.clobberOrigins i } := by
  induction codes with
  | nil => simp
  | cons code codes ih =>
      rw [List.map_cons, Journal.revertAll_cons, ih]
      simp only [RegArrays.revert, RegArrays.mk.injEq, true_and]
      funext i
      by_cases hi : i = code
      · simp [hi]
      · simp [hi]

/-- The wholesale log of a library call's clobber restores all three arrays. -/
theorem revertAll_clobberLog (a old : RegArrays) :
    Journal.revertAll RegArrays.revert (clobberLog old) a = old := by
  simp [clobberLog, Journal.revertAll_append, revertAll_gprLog, revertAll_fprLog,
    revertAll_originLog]

theorem logs_clobberCallerSaved (r : RegisterFile) (keepX0 keepV0 : Bool) (callPc : Word) :
    Logs r (r.clobberCallerSaved keepX0 keepV0 callPc) (clobberLog r.toRegArrays) := by
  refine ⟨?_, ?_, revertAll_clobberLog _ _⟩
  · simp only [clobberCallerSaved]
    split <;> rfl
  · simp only [clobberCallerSaved]
    split <;> rfl

/-- Recording starts with an empty log that undoes to the current state. -/
theorem recorded_recordUndo (r : RegisterFile) (slot : RegUndo) :
    Recorded r.toRegisterState (r.recordUndo slot).1 :=
  ⟨rfl, rfl, rfl⟩

/-- Undoing a step's log restores the registers the step began with, whatever
file holds the step's result. -/
theorem undoStep_of_recorded {s : RegisterState} {r other : RegisterFile}
    (hr : Recorded s r) (hother : other.toRegisterState = r.toRegisterState) :
    (other.undoStep r.undo).toRegisterState = s := by
  have harrays : other.toRegArrays = r.toRegArrays :=
    congrArg RegisterState.toRegArrays hother
  have hsaved := hr.saved
  have hreverted : Journal.revertAll RegArrays.revert r.undo.edits r.toRegArrays =
      s.toRegArrays := hr.arrays
  unfold undoStep
  rw [harrays, hreverted, hsaved]
  rfl

end RegisterFile

end Playground
