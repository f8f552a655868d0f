/-
Two machines that differ only in their undo logs stay so under every call, and every
call answers them alike: what is logged is never read while a step runs.
-/
import Playground.Machine.Cpu

namespace Playground

namespace RegisterFile

/-- Equal up to the undo log. -/
def Alike (r r' : RegisterFile) : Prop := r'.toRegisterState = r.toRegisterState

namespace Alike

variable {r r' : RegisterFile}

/-- The second file, written over the first. -/
theorem eq_with (h : Alike r r') :
    r' = { r with undo := r'.undo, recording := r'.recording } := by
  cases r
  cases r'
  cases h
  rfl

/-- An operation that leaves the registers to a function of the registers. -/
theorem of_state {f : RegisterFile → RegisterFile} (h : Alike r r')
    (hf : ∀ undo recording, (f { r with undo := undo, recording := recording }).toRegisterState =
      (f r).toRegisterState) : Alike (f r) (f r') := by
  rw [h.eq_with]
  exact hf _ _

end Alike

@[simp] theorem log_toRegisterState (r : RegisterFile) (edit : RegEdit) :
    (r.log edit).toRegisterState = r.toRegisterState := by
  unfold log
  split <;> rfl

namespace Alike

variable {r r' : RegisterFile}

theorem gpr (h : Alike r r') : r'.gpr = r.gpr := congrArg (·.gpr) h

theorem fpr (h : Alike r r') : r'.fpr = r.fpr := congrArg (·.fpr) h

theorem sp (h : Alike r r') : r'.sp = r.sp := congrArg (·.sp) h

theorem pc (h : Alike r r') : r'.pc = r.pc := congrArg (·.pc) h

theorem markFlagsRead (h : Alike r r') : Alike r.markFlagsRead r'.markFlagsRead := by
  refine h.of_state (f := RegisterFile.markFlagsRead) fun undo recording => ?_
  unfold RegisterFile.markFlagsRead
  split <;> rfl

theorem writePc (h : Alike r r') (value : Word) : Alike (r.writePc value) (r'.writePc value) :=
  h.of_state (f := fun r => r.writePc value) fun _ _ => rfl

theorem writeGpr (h : Alike r r') (index : Nat) (sf : Bool) (value : Word) :
    Alike (r.writeGpr index sf value) (r'.writeGpr index sf value) := by
  refine h.of_state (f := fun r => r.writeGpr index sf value) fun undo recording => ?_
  by_cases hindex : index < 31
  · simp [RegisterFile.writeGpr, hindex]
  · simp [RegisterFile.writeGpr, hindex]

theorem readGpr (h : Alike r r') (index : Nat) (sf : Bool) :
    Alike (r.readGpr index sf).1 (r'.readGpr index sf).1 ∧
      (r'.readGpr index sf).2 = (r.readGpr index sf).2 := by
  refine ⟨h.of_state (f := fun r => (r.readGpr index sf).1) fun undo recording => ?_, ?_⟩
  · unfold RegisterFile.readGpr
    simp only
    split <;> rfl
  · unfold RegisterFile.readGpr gprValue
    simp only
    rw [h.gpr]

theorem storeFpr (h : Alike r r') (index : Nat) (low : Bool) (value : BitVec 128) :
    Alike (r.storeFpr index low value) (r'.storeFpr index low value) := by
  refine h.of_state (f := fun r => r.storeFpr index low value) fun undo recording => ?_
  by_cases hindex : index < 32
  · cases low <;> simp [RegisterFile.storeFpr, hindex, logFpr, unclobberFpr]
  · simp [RegisterFile.storeFpr, hindex]

theorem writeFprLane (h : Alike r r') (index esizeBytes lane : Nat) (value : Word) :
    Alike (r.writeFprLane index esizeBytes lane value)
      (r'.writeFprLane index esizeBytes lane value) := by
  unfold RegisterFile.writeFprLane
  split
  · exact h
  · simp only [h.fpr]
    exact h.storeFpr _ _ _

/-- Every call the executor or a stub makes on the registers. -/
theorem run (h : Alike r r') (call : RegCall) : Alike (call.run r) (call.run r') := by
  cases call with
  | readGpr index sf => exact (h.readGpr index sf).1
  | writeGpr index sf value => exact h.writeGpr index sf value
  | writeSp value => exact h.of_state (f := fun r => r.writeSp value) fun _ _ => rfl
  | writePc value => exact h.writePc value
  | assignNzcv flags => exact h.of_state (f := fun r => r.assignNzcv flags) fun _ _ => rfl
  | setNzcv flags => exact h.of_state (f := fun r => r.setNzcv flags) fun _ _ => rfl
  | conditionHolds cond =>
      unfold RegCall.run conditionHolds
      simp only
      split
      · exact h
      · exact h.markFlagsRead
  | carryFlag => exact h.markFlagsRead
  | readFprBits index =>
      refine h.of_state (f := fun r => (r.readFprBits index).1) fun undo recording => ?_
      unfold readFprBits
      split <;> rfl
  | writeFprBits index value => exact h.storeFpr index true _
  | writeFprQ index value => exact h.storeFpr index true _
  | writeFprScalar index bytes value => exact h.storeFpr index true _
  | writeFprLane index esizeBytes lane value => exact h.writeFprLane index esizeBytes lane value

theorem takeClobberedReads (h : Alike r r') :
    Alike r.takeClobberedReads.1 r'.takeClobberedReads.1 ∧
      r'.takeClobberedReads.2 = r.takeClobberedReads.2 :=
  ⟨h.of_state (f := fun r => r.takeClobberedReads.1) fun _ _ => rfl,
    congrArg (·.clobberedReads) h⟩

theorem clobberCallerSaved (h : Alike r r') (keepX0 keepV0 : Bool) (callPc : Word) :
    Alike (r.clobberCallerSaved keepX0 keepV0 callPc)
      (r'.clobberCallerSaved keepX0 keepV0 callPc) := by
  refine h.of_state (f := fun r => r.clobberCallerSaved keepX0 keepV0 callPc)
    fun undo recording => ?_
  cases hrec : r.recording <;> cases recording <;>
    simp [RegisterFile.clobberCallerSaved, hrec]

theorem setOrigin (h : Alike r r') (code : Nat) (origin : ClobberOrigin) :
    Alike (r.setOrigin code origin) (r'.setOrigin code origin) := by
  refine h.of_state (f := fun r => r.setOrigin code origin) fun undo recording => ?_
  simp [RegisterFile.setOrigin]

theorem markCalleeSaved (h : Alike r r') (mask : BitVec 32) (retPc : Word) :
    Alike (r.markCalleeSaved mask retPc) (r'.markCalleeSaved mask retPc) := by
  have hfold : ∀ (codes : List Nat) {r r' : RegisterFile}, Alike r r' →
      Alike (codes.foldl (fun r code =>
          if mask.getLsbD code then r.setOrigin code ⟨code, retPc.setWidth 32, 0⟩ else r) r)
        (codes.foldl (fun r code =>
          if mask.getLsbD code then r.setOrigin code ⟨code, retPc.setWidth 32, 0⟩ else r) r') := by
    intro codes
    induction codes with
    | nil => exact id
    | cons code codes ih =>
        intro r r' h
        simp only [List.foldl_cons]
        apply ih
        split
        · exact h.setOrigin _ _
        · exact h
  exact (hfold _ h).of_state
    (f := fun r => { r with clobbered := { r.clobbered with x := r.clobbered.x ||| mask } })
    fun _ _ => rfl

theorem carryClobber (h : Alike r r') (source dest : Nat) (pc : BitVec 32) :
    Alike (r.carryClobber source dest pc) (r'.carryClobber source dest pc) := by
  have horigins : r'.clobberOrigins = r.clobberOrigins := congrArg (·.clobberOrigins) h
  unfold RegisterFile.carryClobber
  simp only [horigins]
  split
  · exact (h.setOrigin dest _).of_state
      (f := fun r => { r with clobbered :=
        { r.clobbered with x := r.clobbered.x ||| (1#32 <<< dest) } }) fun _ _ => rfl
  · exact (h.setOrigin dest _).of_state
      (f := fun r => { r with clobbered :=
        { r.clobbered with d := r.clobbered.d ||| (1#32 <<< (dest - 32)) } }) fun _ _ => rfl

theorem snapshot (h : Alike r r') : r'.snapshot = r.snapshot := by
  unfold RegisterFile.snapshot
  rw [h.gpr, h.sp]

theorem writeWidth (h : Alike r r') (index : Nat) : r'.writeWidth index = r.writeWidth index := by
  have hnarrow : r'.narrow = r.narrow := congrArg (·.narrow) h
  unfold RegisterFile.writeWidth
  rw [hnarrow]

end Alike

end RegisterFile

namespace Memory

/-- Equal up to the replaced bytes and the mapped pages of the undo log. -/
structure Alike (m m' : Memory) : Prop where
  pages : m'.pages = m.pages
  dirty : m'.dirty = m.dirty
  written : m'.written = m.written
  zeroFill : m'.zeroFill = m.zeroFill
  runs : m'.undo.runs = m.undo.runs

namespace Alike

variable {m m' : Memory}

theorem refl (m : Memory) : Alike m m := ⟨rfl, rfl, rfl, rfl, rfl⟩

theorem symm (h : Alike m m') : Alike m' m :=
  ⟨h.pages.symm, h.dirty.symm, h.written.symm, h.zeroFill.symm, h.runs.symm⟩

theorem trans {m'' : Memory} (first : Alike m m') (second : Alike m' m'') : Alike m m'' :=
  ⟨second.pages.trans first.pages, second.dirty.trans first.dirty,
    second.written.trans first.written, second.zeroFill.trans first.zeroFill,
    second.runs.trans first.runs⟩

theorem getPage (h : Alike m m') (addr : Word) : m'.getPage addr = m.getPage addr := by
  unfold Memory.getPage inZeroFill
  rw [h.pages, h.zeroFill]

theorem readU8 (h : Alike m m') (addr : Word) : m'.readU8 addr = m.readU8 addr := by
  unfold Memory.readU8
  rw [h.getPage]

theorem readEach (h : Alike m m') (addr : Word) (n : Nat) :
    m'.readEach addr n = m.readEach addr n := by
  induction n generalizing addr with
  | zero => rfl
  | succ n ih => simp only [Memory.readEach, h.readU8, ih]

theorem readLe (h : Alike m m') (addr : Word) (n : Nat) : m'.readLe addr n = m.readLe addr n := by
  unfold Memory.readLe
  rw [h.readEach, h.getPage]

theorem readU32 (h : Alike m m') (addr : Word) : m'.readU32 addr = m.readU32 addr := by
  unfold Memory.readU32
  rw [h.readLe]

theorem readU64 (h : Alike m m') (addr : Word) : m'.readU64 addr = m.readU64 addr := by
  unfold Memory.readU64
  rw [h.readLe]

theorem readU128 (h : Alike m m') (addr : Word) : m'.readU128 addr = m.readU128 addr := by
  unfold Memory.readU128
  rw [h.readLe]

theorem pageOrMap (h : Alike m m') (base : Word) :
    Alike (m.pageOrMap base).1 (m'.pageOrMap base).1 ∧
      (m'.pageOrMap base).2 = (m.pageOrMap base).2 := by
  have hruns : ∀ q : Memory, (if q.recording then
      { q.undo with mapped := q.undo.mapped ++ [base] } else q.undo).runs = q.undo.runs := by
    intro q
    split <;> rfl
  unfold Memory.pageOrMap
  rw [h.pages]
  split
  · exact ⟨h, rfl⟩
  · refine ⟨⟨rfl, h.dirty, h.written, h.zeroFill, ?_⟩, rfl⟩
    exact (hruns m').trans (h.runs.trans (hruns m).symm)

theorem storeInPage (h : Alike m m') (addr : Word) (page : Page) (bytes : List Byte) :
    Alike (m.storeInPage addr page bytes) (m'.storeInPage addr page bytes) := by
  unfold Memory.storeInPage noteWrite
  refine ⟨?_, ?_, ?_, h.zeroFill, ?_⟩
  · simp only [h.pages]
  · simp only [h.dirty]
  · simp only [h.written]
  · simp only [h.runs]

theorem writeInPage (h : Alike m m') (addr : Word) (bytes : List Byte) :
    Alike (m.writeInPage addr bytes).1 (m'.writeInPage addr bytes).1 ∧
      (m'.writeInPage addr bytes).2 = (m.writeInPage addr bytes).2 := by
  unfold Memory.writeInPage mappedPageCount
  rw [h.pages]
  simp only
  split
  · exact ⟨h, rfl⟩
  · obtain ⟨halike, hpage⟩ := h.pageOrMap (pageBase addr)
    simp only [hpage]
    exact ⟨halike.storeInPage addr _ bytes, trivial⟩

theorem writeBytes (h : Alike m m') (addr : Word) (bytes : List Byte) :
    Alike (m.writeBytes addr bytes).1 (m'.writeBytes addr bytes).1 ∧
      (m'.writeBytes addr bytes).2 = (m.writeBytes addr bytes).2 := by
  induction bytes generalizing m m' addr with
  | nil => exact ⟨h, rfl⟩
  | cons byte bytes ih =>
      have hwrite := h.writeInPage addr [byte]
      unfold Memory.writeBytes
      generalize m.writeInPage addr [byte] = first at hwrite ⊢
      generalize m'.writeInPage addr [byte] = first' at hwrite ⊢
      obtain ⟨m₁, result⟩ := first
      obtain ⟨m₁', result'⟩ := first'
      obtain ⟨halike, rfl⟩ := hwrite
      cases result' with
      | ok _ => exact ih halike (addr + 1)
      | error e => exact ⟨halike, rfl⟩

theorem writeLe (h : Alike m m') (addr : Word) (bytes : List Byte) :
    Alike (m.writeLe addr bytes).1 (m'.writeLe addr bytes).1 ∧
      (m'.writeLe addr bytes).2 = (m.writeLe addr bytes).2 := by
  unfold Memory.writeLe
  split
  · exact h.writeBytes addr bytes
  · exact h.writeInPage addr bytes

/-- Every call the executor or a stub makes on memory. -/
theorem run (h : Alike m m') (call : MemCall) : Alike (call.run m) (call.run m') := by
  cases call with
  | writeU8 addr val => exact (h.writeInPage addr [val]).1
  | writeU16 addr val => exact (h.writeLe addr _).1
  | writeU32 addr val => exact (h.writeLe addr _).1
  | writeU64 addr val => exact (h.writeLe addr _).1
  | writeU128 addr val => exact (h.writeLe addr _).1
  | writeBytes addr bytes => exact (h.writeBytes addr bytes).1
  | noteBulkRead len =>
      refine ⟨h.pages, h.dirty, ?_, h.zeroFill, h.runs⟩
      simp only [MemCall.run, noteBulkRead, h.written]

end Alike

end Memory

namespace HeapState

/-- Equal up to the undo log. -/
def Alike (h h' : HeapState) : Prop := h'.toHeapTables = h.toHeapTables

namespace Alike

variable {h h' : HeapState}

theorem eq_with (halike : Alike h h') :
    h' = { h with undo := h'.undo, recording := h'.recording } := by
  cases h
  cases h'
  cases halike
  rfl

theorem of_tables {f : HeapState → HeapState} (halike : Alike h h')
    (hf : ∀ undo recording, (f { h with undo := undo, recording := recording }).toHeapTables =
      (f h).toHeapTables) : Alike (f h) (f h') := by
  rw [halike.eq_with]
  exact hf _ _

theorem free (halike : Alike h h') : h'.free = h.free := congrArg (·.free) halike

theorem next (halike : Alike h h') : h'.next = h.next := congrArg (·.next) halike

theorem live (halike : Alike h h') : h'.live = h.live := congrArg (·.live) halike

theorem insertLive (halike : Alike h h') (addr size : Nat) :
    Alike (h.insertLive addr size) (h'.insertLive addr size) := by
  refine halike.of_tables (f := fun h => h.insertLive addr size) fun undo recording => ?_
  simp [HeapState.insertLive]

theorem takeFree (halike : Alike h h') (index addr block size : Nat) :
    Alike (h.takeFree index addr block size) (h'.takeFree index addr block size) := by
  refine halike.of_tables (f := fun h => h.takeFree index addr block size)
    fun undo recording => ?_
  by_cases hwhole : block = size
  · simp [HeapState.takeFree, hwhole]
  · simp [HeapState.takeFree, hwhole]

theorem bump (halike : Alike h h') (size : Nat) : Alike (h.bump size) (h'.bump size) := by
  refine halike.of_tables (f := fun h => h.bump size) fun undo recording => ?_
  simp [HeapState.bump]

theorem alloc (halike : Alike h h') (size : Nat) : Alike (h.alloc size).1 (h'.alloc size).1 := by
  unfold HeapState.alloc
  rw [halike.free, halike.next]
  split
  · exact halike
  simp only
  split
  · exact (halike.takeFree _ _ _ _).insertLive _ _
  · split
    · exact halike
    · exact (halike.bump _).insertLive _ _

theorem coalesce (halike : Alike h h') (i : Nat) : Alike (h.coalesce i) (h'.coalesce i) := by
  refine halike.of_tables (f := fun h => h.coalesce i) fun undo recording => ?_
  simp only [HeapState.coalesce]
  split
  · split <;> simp
  · rfl

theorem release (halike : Alike h h') (addr : Nat) :
    Alike (h.release addr).1 (h'.release addr).1 := by
  unfold HeapState.release
  rw [halike.live]
  split
  · exact halike
  · next size _ =>
      have hdrop : Alike (h.dropLive addr size) (h'.dropLive addr size) := by
        refine halike.of_tables (f := fun h => h.dropLive addr size) fun undo recording => ?_
        simp [dropLive]
      have hposition : (h'.dropLive addr size).freePosition addr =
          (h.dropLive addr size).freePosition addr := by
        unfold freePosition
        rw [hdrop.free]
      simp only [hposition]
      generalize (h.dropLive addr size).freePosition addr = index
      have hinsert : Alike ((h.dropLive addr size).insertFree index addr size)
          ((h'.dropLive addr size).insertFree index addr size) := by
        refine hdrop.of_tables (f := fun h => h.insertFree index addr size)
          fun undo recording => ?_
        simp [insertFree]
      split
      · exact (hinsert.coalesce index).coalesce (index - 1)
      · exact hinsert.coalesce index

end Alike

end HeapState

namespace Machine

/-- Equal up to the undo logs. -/
structure Alike (m m' : Machine) : Prop where
  regs : RegisterFile.Alike m.regs m'.regs
  mem : Memory.Alike m.mem m'.mem
  heap : HeapState.Alike m.heap m'.heap

theorem Alike.refl (m : Machine) : Alike m m := ⟨rfl, Memory.Alike.refl _, rfl⟩

theorem Alike.symm {m m' : Machine} (h : Alike m m') : Alike m' m :=
  ⟨Eq.symm h.regs, h.mem.symm, Eq.symm h.heap⟩

theorem Alike.trans {m m' m'' : Machine} (first : Alike m m') (second : Alike m' m'') :
    Alike m m'' :=
  ⟨Eq.trans second.regs first.regs, first.mem.trans second.mem, Eq.trans second.heap first.heap⟩

theorem Alike.run {m m' : Machine} (h : Alike m m') (call : MachineCall) :
    Alike (call.run m) (call.run m') := by
  cases call with
  | reg call => exact ⟨h.regs.run call, h.mem, h.heap⟩
  | mem call => exact ⟨h.regs, h.mem.run call, h.heap⟩
  | heap call =>
      refine ⟨h.regs, h.mem, ?_⟩
      cases call with
      | alloc size => exact h.heap.alloc size
      | release addr => exact h.heap.release addr

end Machine

namespace Routine

variable {ρ ρ' : Type}

/-- The two routines make the same calls, whatever the undo logs hold, and end in
related values. -/
def Matches (R : ρ → ρ' → Prop) : Routine ρ → Routine ρ' → Prop
  | .done a, .done b => R a b
  | .invoke op next, .invoke op' next' =>
      op' = op ∧ ∀ m m', Machine.Alike m m' → Matches R (next m) (next' m')
  | _, _ => False

theorem Matches.run {R : ρ → ρ' → Prop} {routine : Routine ρ} {routine' : Routine ρ'}
    (h : Matches R routine routine') {m m' : Machine} (hm : Machine.Alike m m') :
    Machine.Alike (routine.run m).1 (routine'.run m').1 ∧
      R (routine.run m).2 (routine'.run m').2 := by
  induction routine generalizing routine' m m' with
  | done a =>
      cases routine' with
      | done b => exact ⟨hm, h⟩
      | invoke op' next' => exact h.elim
  | invoke op next ih =>
      cases routine' with
      | done b => exact h.elim
      | invoke op' next' =>
          obtain ⟨rfl, hnext⟩ := h
          have hop := hm.run op'
          exact ih _ (hnext _ _ hop) hop

end Routine

namespace CallTree

variable (t : CallTree) (log log' : Option TreeUndo)

theorem addCall_log (c : Nat) (entry x0 : Word) (run : Nat) :
    (t.addCall c entry x0 run log').1 = (t.addCall c entry x0 run log).1 := by
  unfold addCall
  simp only
  split <;> rfl

theorem enter_log (entry x0 : Word) :
    (t.enter entry x0 log').1 = (t.enter entry x0 log).1 := by
  have hadd := fun c run => t.addCall_log log log' c entry x0 run
  unfold enter
  simp only
  split
  · rfl
  split
  · rfl
  split
  · split
    · rfl
    · exact hadd _ _
  split
  · exact hadd _ _
  · exact hadd _ _

theorem leave_log (x0 : Word) (x0Width : Nat) :
    (t.leave x0 x0Width log').1 = (t.leave x0 x0Width log).1 := by
  unfold leave
  simp only
  split
  · rfl
  split <;> rfl

end CallTree

namespace CallStack

variable (s : CallStack) (log log' : Option FrameUndo)

theorem onTree_log {op op' : CallTree → Option TreeUndo → CallTree × Option TreeUndo}
    (h : ∀ t log log', (op' t log').1 = (op t log).1) :
    (s.onTree log' op').1 = (s.onTree log op).1 := by
  unfold onTree
  simp only [h s.tree (log.map FrameUndo.tree) (log'.map FrameUndo.tree)]

theorem push_log (a : Activation) (x0 : Word) : (s.push a x0 log').1 = (s.push a x0 log).1 := by
  have htree := s.onTree_log log log' fun t log log' => t.enter_log log log' a.entry x0
  unfold push
  simp only [htree]
  split <;> rfl

theorem mark_log (record : Word) (flags : BitVec 8) (lastRet : Word) :
    (s.mark record flags lastRet log').1 = (s.mark record flags lastRet log).1 := by
  unfold mark
  simp only
  split <;> rfl

theorem settleCaller_log (pc sp fp : Word) {m m' : Memory} (h : Memory.Alike m m') :
    (s.settleCaller pc sp fp m' log').1 = (s.settleCaller pc sp fp m log).1 := by
  have hrecord : ∀ caller, callerRecord caller sp fp m' = callerRecord caller sp fp m := by
    intro caller
    unfold callerRecord shape holdsRecord
    rw [h.readU128, h.readU128]
  unfold settleCaller
  split
  · simp only [hrecord]
    split
    · exact s.mark_log log log' _ _ _
    · rfl
  · rfl

theorem onCall_log (pc target : Word) (intoProgram : Bool) (regs : Fin 32 → Word) {m m' : Memory}
    (h : Memory.Alike m m') : (s.onCall pc target intoProgram regs m' log').1 =
      (s.onCall pc target intoProgram regs m log).1 := by
  unfold onCall
  simp only [s.settleCaller_log log log' pc (regs 31) (regs 29) h]
  split
  · exact push_log _ _ _ _ _
  · rfl

theorem onLrStore_log : (s.onLrStore log').1 = (s.onLrStore log).1 := by
  unfold onLrStore
  split
  · split
    · exact s.mark_log log log' _ _ _
    · rfl
  · rfl

theorem onRuntimeCall_log (stubPc target : Word) (regs : Fin 32 → Word) :
    (s.onRuntimeCall stubPc target regs log').1 = (s.onRuntimeCall stubPc target regs log).1 :=
  s.push_log log log' _ _

theorem unwind_log (n : Nat) (x0 : Word) (x0Width : Nat) :
    (s.unwind n x0 x0Width log').1 = (s.unwind n x0 x0Width log).1 := by
  induction n generalizing s log log' with
  | zero => rfl
  | succ n ih =>
      unfold unwind
      split
      · rfl
      · next a _ =>
          have htree := fun log log' => onTree_log { s with acts := s.acts.dropLast } log log'
            fun t log log' => t.leave_log log log' x0 x0Width
          simp only
          rw [htree (log.map fun log => { log with removed := log.removed ++ [a] })]
          exact ih _ _ _

theorem onReturn_log (pc target : Word) (step : Nat) (regs : Fin 32 → Word) (x0Width : Nat) :
    (s.onReturn pc target step regs x0Width log').1.1 =
      (s.onReturn pc target step regs x0Width log).1.1 ∧
    (s.onReturn pc target step regs x0Width log').2 =
      (s.onReturn pc target step regs x0Width log).2 := by
  unfold onReturn
  split
  · exact ⟨onTree_log _ log log' fun t log log' => t.leave_log log log' (regs 0) x0Width, rfl⟩
  split
  · split
    · exact ⟨s.unwind_log log log' 1 _ _, rfl⟩
    · split
      · exact ⟨s.unwind_log log log' _ _ _, rfl⟩
      · exact ⟨rfl, rfl⟩
  · exact ⟨rfl, rfl⟩

theorem walkRecords_log {m m' : Memory} (h : Memory.Alike m m') (addr : Word) (stop : Nat)
    (hit : Hit) (fuel : Nat) (start : Option Nat) (acts : List Activation) :
    (walkRecords m' addr stop hit fuel start acts log').1 =
      (walkRecords m addr stop hit fuel start acts log).1 := by
  have hhits : ∀ a, hitAt m' addr stop hit a = hitAt m addr stop hit a := by
    intro a
    unfold hitAt
    simp only [h.readU64]
  induction fuel generalizing start acts log log' with
  | zero => rfl
  | succ fuel ih =>
      cases start with
      | none => rfl
      | some i =>
          unfold walkRecords
          split
          · rfl
          · next a _ =>
              split
              · rfl
              · simp only [hhits]
                by_cases hchanged : hitAt m addr stop hit a ≠ (a.fpHit, a.lrHit)
                · simp only [if_pos hchanged]
                  exact ih _ _ _ _
                · simp only [if_neg hchanged]
                  exact ih _ _ _ _

theorem watchWrites_log (writes : List (Word × Nat)) (step : Nat) {m m' : Memory}
    (h : Memory.Alike m m') (writer : Word × Word) :
    (s.watchWrites writes step m' writer log').1 = (s.watchWrites writes step m writer log).1 := by
  have hfold : ∀ (nearest : Nat) (writes : List (Word × Nat))
      (state state' : List Activation × Option FrameUndo), state'.1 = state.1 →
      (writes.foldl (watchWrite step m' writer nearest) state').1 =
        (writes.foldl (watchWrite step m writer nearest) state).1 := by
    intro nearest writes
    induction writes with
    | nil => exact fun state state' hstate => hstate
    | cons write writes ih =>
        intro state state' hstate
        apply ih
        unfold watchWrite
        rw [hstate]
        exact walkRecords_log _ _ h _ _ _ _ _ _
  unfold watchWrites
  split
  · rfl
  simp only
  split
  · rfl
  split
  · rfl
  · simp only [hfold _ writes (s.acts, log) (s.acts, log') rfl]

end CallStack

end Playground
