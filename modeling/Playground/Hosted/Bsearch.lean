/-
`bsearch`: the search calls back into the program.  Each dispatch asks the comparator about
one element and suspends; the comparator's return lands on the stub again, which goes on
from the job it kept.
-/
import Playground.Hosted.Arguments
import Playground.Library.Bisect

namespace Playground

namespace Job

/-- The element asked about. -/
def mid (job : Job) : Nat := job.lo + (job.hi - job.lo) / 2

def element (job : Job) (i : Nat) : Word := job.base + BitVec.ofNat 64 (i * job.size)

end Job

namespace CallbackState

def push (s : CallbackState) (job : Job) : CallbackState := { s with jobs := s.jobs ++ [job] }

def pop (s : CallbackState) : CallbackState := { s with jobs := s.jobs.dropLast }

/-- Replace the innermost job. -/
def update (s : CallbackState) (job : Job) : CallbackState :=
  { s with jobs := s.jobs.dropLast ++ [job] }

/-- The innermost job, if it is of this kind. -/
def innermost (s : CallbackState) (search : Bool) : Option Job :=
  s.jobs.getLast?.filter fun job => job.search == search

end CallbackState

namespace Hosted

open Exec

def modifyCallbacks (f : CallbackState → CallbackState) : Stub Unit :=
  Stub.modify fun side => { side with callbacks := f side.callbacks }

/-- The job to go on with: the comparator just returned here if the link register names this
stub and the innermost job is ours; anything else is a fresh call. -/
def resuming (search : Bool) : Stub (Option Job) := do
  let lr ← readGpr 30 true
  let callbacks ← Stub.look HostSide.callbacks
  return if lr = callbacks.stubPc then callbacks.innermost search else none

/-- Hand the comparator its two arguments and send the cpu there. -/
def compare (job : Job) (left right : Word) : Stub HostOutcome := do
  writeGpr 0 true left
  writeGpr 1 true right
  let callbacks ← Stub.look HostSide.callbacks
  writeGpr 30 true callbacks.stubPc
  return .call job.compare

/-- Finish the innermost job: the result in x0 and the real caller's return address back in
the link register. -/
def finish (job : Job) (result : Word) : Stub HostOutcome := do
  modifyCallbacks CallbackState.pop
  writeGpr 0 true result
  writeGpr 30 true job.caller
  return .continue

/-- Ask about the element in the middle of the candidates, if any are left. -/
def probe (job : Job) : Stub HostOutcome :=
  if job.lo ≥ job.hi then finish job 0
  else compare job job.key (job.element job.mid)

/-- A fresh call: note it as a job, from its arguments. -/
def beginSearch : Stub HostOutcome := do
  let base ← readGpr 1 true
  let count ← readGpr 2 true
  let size ← readGpr 3 true
  let target ← readGpr 4 true
  let key ← readGpr 0 true
  let caller ← readGpr 30 true
  let hi ← readGpr 2 true
  let job : Job :=
    { search := true, base := base, count := count.toNat, size := size.toNat, compare := target,
      key := key, caller := caller, next := 0, lo := 0, hi := hi.toNat }
  modifyCallbacks fun callbacks => callbacks.push job
  probe job

/-- The comparator's answer for the element in the middle narrows the candidates. -/
def resumeSearch (job : Job) : Stub HostOutcome := do
  let order ← readGpr 0 false
  if asI32 order = 0 then finish job (job.element job.mid)
  else do
    let job := if asI32 order < 0 then { job with hi := job.mid }
      else { job with lo := job.mid + 1 }
    modifyCallbacks fun callbacks => callbacks.update job
    probe job

/-- bsearch(key, base, count, size, compare), probing in glibc's order. -/
def bsearch : Stub HostOutcome := do
  match ← resuming true with
  | some job => resumeSearch job
  | none => beginSearch

/-- A state that differs in the link register, the first two arguments, the pc and the jobs
at most: the comparator's own frame, the array and the key stand as they did. -/
structure Undisturbed (side : HostSide) (m : Machine) (side' : HostSide) (m' : Machine) :
    Prop where
  side : { side' with callbacks := side.callbacks } = side
  mem : m'.mem = m.mem
  heap : m'.heap = m.heap
  gpr : ∀ i : Fin 31, i.val ≠ 0 → i.val ≠ 1 → i.val ≠ 30 → m'.regs.gpr i = m.regs.gpr i
  fpr : m'.regs.fpr = m.regs.fpr
  sp : m'.regs.sp = m.regs.sp
  nzcv : m'.regs.nzcv = m.regs.nzcv

namespace Undisturbed

variable {side side₁ side₂ : HostSide} {m m₁ m₂ : Machine}

theorem refl (side : HostSide) (m : Machine) : Undisturbed side m side m :=
  ⟨rfl, rfl, rfl, fun _ _ _ _ => rfl, rfl, rfl, rfl⟩

theorem trans (h : Undisturbed side m side₁ m₁) (h' : Undisturbed side₁ m₁ side₂ m₂) :
    Undisturbed side m side₂ m₂ where
  side := by
    have hside := congrArg (fun s : HostSide => { s with callbacks := side.callbacks }) h'.side
    exact hside.trans h.side
  mem := h'.mem.trans h.mem
  heap := h'.heap.trans h.heap
  gpr := fun i h0 h1 h30 => (h'.gpr i h0 h1 h30).trans (h.gpr i h0 h1 h30)
  fpr := h'.fpr.trans h.fpr
  sp := h'.sp.trans h.sp
  nzcv := h'.nzcv.trans h.nzcv

/-- A new stub address or a change of the jobs. -/
theorem callbacks (side : HostSide) (callbacks : CallbackState) (m : Machine) :
    Undisturbed side m { side with callbacks := callbacks } m :=
  ⟨rfl, rfl, rfl, fun _ _ _ _ => rfl, rfl, rfl, rfl⟩

theorem of_values {regs : RegisterFile} (h : regs.values = m.regs.values) :
    Undisturbed side m side { m with regs := regs } where
  side := rfl
  mem := rfl
  heap := rfl
  gpr := fun i _ _ _ => congrFun (congrArg RegisterValues.gpr h) i
  fpr := congrArg RegisterValues.fpr h
  sp := congrArg RegisterValues.sp h
  nzcv := congrArg RegisterValues.nzcv h

theorem writeGpr (side : HostSide) (m : Machine) {index : Nat} (value : Word)
    (h : index = 0 ∨ index = 1 ∨ index = 30) :
    Undisturbed side m side (MachineCall.run m (.reg (.writeGpr index true value))) := by
  have hlt : index < 31 := by omega
  have hvalues := RegisterFile.values_writeGpr m.regs index true value
  rw [dif_pos hlt] at hvalues
  refine ⟨rfl, rfl, rfl, fun i h0 h1 h30 => ?_, congrArg RegisterValues.fpr hvalues,
    congrArg RegisterValues.sp hvalues, congrArg RegisterValues.nzcv hvalues⟩
  have hgpr := congrFun (congrArg RegisterValues.gpr hvalues) i
  refine hgpr.trans (Function.update_of_ne (fun heq => ?_) _ _)
  have hindex : i.val = index := congrArg Fin.val heq
  omega

end Undisturbed

/-- Code that leaves the comparator's surroundings, however it ends. -/
def Quiet {α : Type} (x : Stub α) : Prop :=
  ∀ side closed m, Undisturbed side m (x.run side closed m).2.1 (x.run side closed m).1

namespace Quiet

variable {α β : Type}

theorem pure (a : α) : Quiet (Pure.pure a : Stub α) := fun side _ m => .refl side m

theorem look (f : HostSide → α) : Quiet (Stub.look f) := fun side _ m => .refl side m

theorem bind {x : Stub α} {f : α → Stub β} (hx : Quiet x) (hf : ∀ a, Quiet (f a)) :
    Quiet (x >>= f) := by
  intro side closed m
  have hfirst := hx side closed m
  rw [Stub.run_bind]
  generalize x.run side closed m = first at hfirst ⊢
  rcases first with ⟨m₁, side₁, e | a⟩
  · exact hfirst
  · exact hfirst.trans (hf a side₁ closed m₁)

theorem readGpr (index : Nat) (sf : Bool) : Quiet (liftM (Exec.readGpr index sf)) :=
  fun _ _ m => .of_values (RegisterFile.values_readGpr m.regs index sf)

theorem writeGpr {index : Nat} (value : Word) (h : index = 0 ∨ index = 1 ∨ index = 30) :
    Quiet (liftM (Exec.writeGpr index true value)) := fun side _ m => .writeGpr side m value h

theorem modifyCallbacks (f : CallbackState → CallbackState) : Quiet (modifyCallbacks f) :=
  fun side _ m => .callbacks side (f side.callbacks) m

theorem compare (job : Job) (left right : Word) : Quiet (compare job left right) :=
  (writeGpr left (.inl rfl)).bind fun _ => (writeGpr right (.inr (.inl rfl))).bind fun _ =>
    (look _).bind fun _ => (writeGpr _ (.inr (.inr rfl))).bind fun _ => pure _

theorem finish (job : Job) (result : Word) : Quiet (finish job result) :=
  (modifyCallbacks _).bind fun _ => (writeGpr result (.inl rfl)).bind fun _ =>
    (writeGpr job.caller (.inr (.inr rfl))).bind fun _ => pure _

theorem probe (job : Job) : Quiet (probe job) := by
  unfold Hosted.probe
  split
  · exact finish job 0
  · exact compare job _ _

theorem resumeSearch (job : Job) : Quiet (resumeSearch job) := by
  apply (readGpr 0 false).bind
  intro order
  dsimp only
  split
  · exact finish job _
  · exact (modifyCallbacks _).bind fun _ => probe _

theorem beginSearch : Quiet beginSearch :=
  (readGpr 1 true).bind fun _ => (readGpr 2 true).bind fun _ => (readGpr 3 true).bind fun _ =>
    (readGpr 4 true).bind fun _ => (readGpr 0 true).bind fun _ => (readGpr 30 true).bind fun _ =>
      (readGpr 2 true).bind fun _ => (modifyCallbacks _).bind fun _ => probe _

/-- Every dispatch leaves memory, and all but what it hands over. -/
theorem bsearch : Quiet bsearch := by
  have hresuming : Quiet (resuming true) :=
    (readGpr 30 true).bind fun _ => (look _).bind fun _ => pure _
  apply hresuming.bind
  intro job
  cases job with
  | some job => exact resumeSearch job
  | none => exact beginSearch

end Quiet

/-- The program's comparator, from its entry until it is back on the stub. -/
abbrev Comparator := HostSide → Machine → HostSide × Machine

/-- Note the stub being dispatched, as every dispatch does. -/
def enter (pc : Word) (side : HostSide) : HostSide :=
  { side with callbacks := { side.callbacks with stubPc := pc } }

def dispatch (pc : Word) (closed : Bool) (side : HostSide) (m : Machine) :
    Machine × HostSide × Except EmuError HostOutcome :=
  bsearch.run (enter pc side) closed m

section Dispatch

variable {pc : Word} {side : HostSide} {m : Machine} {jobs : List Job} {job : Job}

theorem run_resuming {search : Bool} (closed : Bool) {resumed : Option Job}
    (h : (if m.regs.gprValue 30 true = pc then (enter pc side).callbacks.innermost search
      else none) = resumed) :
    (resuming search).run (enter pc side) closed m =
      (⟨(m.regs.readGpr 30 true).1, m.mem, m.heap⟩, enter pc side, .ok resumed) := by
  rw [resuming, Stub.run_bind, Stub.run_liftM, run_readGpr]
  simp only
  rw [Stub.run_bind, Stub.run_look]
  have hstub : (enter pc side).callbacks.stubPc = pc := rfl
  simp only [hstub, h]
  rfl

/-- On the comparator's return a stub goes on with the innermost job, if it is its own. -/
theorem run_resuming_returned (search closed : Bool) (hlr : m.regs.gprValue 30 true = pc)
    (hjobs : side.callbacks.jobs = jobs ++ [job]) (hown : job.search = search) :
    (resuming search).run (enter pc side) closed m =
      (⟨(m.regs.readGpr 30 true).1, m.mem, m.heap⟩, enter pc side, .ok (some job)) := by
  refine run_resuming closed ?_
  rw [if_pos hlr]
  show side.callbacks.jobs.getLast?.filter _ = _
  rw [hjobs, List.getLast?_concat, Option.filter_some, if_pos (by simpa using hown)]

/-- A call that is no such return is a fresh one. -/
theorem run_resuming_fresh (search closed : Bool) (hfresh : m.regs.gprValue 30 true = pc →
      ∀ job ∈ side.callbacks.jobs.getLast?, job.search ≠ search) :
    (resuming search).run (enter pc side) closed m =
      (⟨(m.regs.readGpr 30 true).1, m.mem, m.heap⟩, enter pc side, .ok none) := by
  refine run_resuming closed ?_
  split
  next hlr =>
    show side.callbacks.jobs.getLast?.filter _ = none
    rw [Option.filter_eq_none_iff]
    intro job hjob
    simpa using hfresh hlr job hjob
  next => rfl

/-- Reading where the comparator returned to leaves its answer. -/
theorem values_returned (r : RegisterFile) :
    ((r.readGpr 30 true).1.readGpr 0 false).1.values = r.values ∧
      (r.readGpr 30 true).1.gprValue 0 false = r.gprValue 0 false := by
  have hreturn := RegisterFile.values_readGpr r 30 true
  exact ⟨(RegisterFile.values_readGpr _ 0 false).trans hreturn,
    RegisterFile.gprValue_congr hreturn 0 false⟩

theorem update_enter (hjobs : side.callbacks.jobs = jobs ++ [job]) (next : Job) :
    (enter pc side).callbacks.update next = ⟨pc, jobs ++ [next]⟩ := by
  show (⟨pc, side.callbacks.jobs.dropLast ++ [next]⟩ : CallbackState) = _
  rw [hjobs, List.dropLast_concat]

end Dispatch

/-- The comparator run from the target of a call. -/
def Comparator.answer (comparator : Comparator) (target : Word) (side : HostSide) (m : Machine) :
    HostSide × Machine :=
  comparator side { m with regs := m.regs.writePc target }

/-- A search from what a dispatch came to until it returns: how many comparator calls it
makes, and the state it returns in. -/
inductive Returns (pc : Word) (closed : Bool) (comparator : Comparator) :
    Machine × HostSide × Except EmuError HostOutcome → Nat → HostSide → Machine → Prop
  | returned (m : Machine) (side : HostSide) :
      Returns pc closed comparator (m, side, .ok .continue) 0 side m
  | asked {m : Machine} {side : HostSide} {target : Word} {n : Nat} {side' : HostSide}
      {m' : Machine}
      (h : Returns pc closed comparator
        (dispatch pc closed (comparator.answer target side m).1
          (comparator.answer target side m).2) n side' m') :
      Returns pc closed comparator (m, side, .ok (.call target)) (n + 1) side' m'

/-- The arguments of a call. -/
structure Search where
  pc : Word
  jobs : List Job
  key : Word
  base : Word
  count : Nat
  size : Nat
  target : Word
  caller : Word

namespace Search

variable (s : Search)

/-- The job of the call, with the candidates still left. -/
def job (lo hi : Nat) : Job :=
  { search := true, base := s.base, count := s.count, size := s.size, compare := s.target,
    key := s.key, caller := s.caller, next := 0, lo := lo, hi := hi }

def element (i : Nat) : Word := s.base + BitVec.ofNat 64 (i * s.size)

/-- The state the comparator is entered in to answer an element. -/
structure Entry (i : Nat) (m : Machine) : Prop where
  pc : m.regs.pc = s.target
  key : m.regs.gprValue 0 true = s.key
  element : m.regs.gprValue 1 true = s.element i
  lr : m.regs.gprValue 30 true = s.pc

/-- The comparator answers every element, by where it stands in `order`, and keeps what it
relies on. -/
def Answers (inv : HostSide → Machine → Prop) (order : Nat → Int) (comparator : Comparator) :
    Prop :=
  ∀ i < s.count, ∀ side m, inv side m → s.Entry i m →
    inv (comparator side m).1 (comparator side m).2 ∧
    (asI32 ((comparator side m).2.regs.gprValue 0 false)).sign = (order i).sign

/-- The comparator comes back as it was sent off: the link register names the stub, and no
other search or sort is part-way through. -/
def ComesBack (inv : HostSide → Machine → Prop) (comparator : Comparator) : Prop :=
  ∀ i < s.count, ∀ side m, inv side m → s.Entry i m →
    (comparator side m).2.regs.gprValue 30 true = s.pc ∧
    (comparator side m).1.callbacks.jobs = side.callbacks.jobs

/-- The registers and the jobs of a fresh call. -/
structure Called (side : HostSide) (m : Machine) : Prop where
  key : m.regs.gprValue 0 true = s.key
  base : m.regs.gprValue 1 true = s.base
  count : (m.regs.gprValue 2 true).toNat = s.count
  size : (m.regs.gprValue 3 true).toNat = s.size
  target : m.regs.gprValue 4 true = s.target
  caller : m.regs.gprValue 30 true = s.caller
  jobs : side.callbacks.jobs = s.jobs

/-- The call comes from the program, not from a search's own comparator. -/
def Fresh : Prop := s.caller = s.pc → ∀ job ∈ s.jobs.getLast?, job.search = false

/-- What the call comes to: an element answered as equal if there is one, else null, the
caller's return address, and the jobs there were. -/
structure Found (order : Nat → Int) (side : HostSide) (m : Machine) : Prop where
  equal : (∃ i < s.count, order i = 0) →
    ∃ i < s.count, order i = 0 ∧ m.regs.gprValue 0 true = s.element i
  null : (∀ i < s.count, order i ≠ 0) → m.regs.gprValue 0 true = 0
  caller : m.regs.gprValue 30 true = s.caller
  jobs : side.callbacks.jobs = s.jobs

end Search

/-- The registers as the comparator finds them. -/
def handOver (left right lr : Word) (r : RegisterFile) : RegisterFile :=
  ((r.writeGpr 0 true left).writeGpr 1 true right).writeGpr 30 true lr

/-- The registers as the caller finds them. -/
def handBack (result lr : Word) (r : RegisterFile) : RegisterFile :=
  (r.writeGpr 0 true result).writeGpr 30 true lr

theorem run_compare (job : Job) (left right : Word) (side : HostSide) (closed : Bool)
    (m : Machine) :
    (compare job left right).run side closed m =
      (⟨handOver left right side.callbacks.stubPc m.regs, m.mem, m.heap⟩, side,
        .ok (.call job.compare)) := rfl

theorem run_finish (job : Job) (result : Word) (side : HostSide) (closed : Bool) (m : Machine) :
    (finish job result).run side closed m =
      (⟨handBack result job.caller m.regs, m.mem, m.heap⟩,
        { side with callbacks := side.callbacks.pop }, .ok .continue) := rfl

theorem handBack_x0 (result lr : Word) (r : RegisterFile) :
    (handBack result lr r).gprValue 0 true = result :=
  (gprValue_writeGpr_of_ne _ lr true (by decide) (by decide)).trans
    (gprValue_writeGpr_same r result (by decide))

theorem handBack_lr (result lr : Word) (r : RegisterFile) :
    (handBack result lr r).gprValue 30 true = lr :=
  gprValue_writeGpr_same _ lr (by decide)

namespace Search

section Run

variable (s : Search) {side : HostSide} (closed : Bool) {m : Machine} {lo hi : Nat}

/-- The comparator is handed the key, the element and the stub to return to. -/
theorem entry_handOver (r : RegisterFile) (mem : Memory) (heap : HeapState) (i : Nat) :
    s.Entry i ⟨(handOver s.key (s.element i) s.pc r).writePc s.target, mem, heap⟩ where
  pc := rfl
  key := (gprValue_writeGpr_of_ne _ s.pc true (by decide) (by decide)).trans
    ((gprValue_writeGpr_of_ne _ (s.element i) true (by decide) (by decide)).trans
      (gprValue_writeGpr_same r s.key (by decide)))
  element := (gprValue_writeGpr_of_ne _ s.pc true (by decide) (by decide)).trans
    (gprValue_writeGpr_same _ (s.element i) (by decide))
  lr := gprValue_writeGpr_same _ s.pc (by decide)

theorem probe_done (h : ¬ lo < hi) : probe (s.job lo hi) = finish (s.job lo hi) 0 :=
  if_pos (Nat.not_lt.mp h)

theorem probe_ask (h : lo < hi) :
    probe (s.job lo hi) = compare (s.job lo hi) s.key (s.element (lo + (hi - lo) / 2)) :=
  if_neg (Nat.not_le.mpr h)

/-- The stub goes on with the job it kept, by the sign of the answer. -/
theorem run_dispatch_resumed (hlr : m.regs.gprValue 30 true = s.pc)
    (hjobs : side.callbacks.jobs = s.jobs ++ [s.job lo hi]) :
    ∃ regs, regs.values = m.regs.values ∧
      dispatch s.pc closed side m =
        if asI32 (m.regs.gprValue 0 false) = 0 then
          (finish (s.job lo hi) (s.element (lo + (hi - lo) / 2))).run (enter s.pc side) closed
            ⟨regs, m.mem, m.heap⟩
        else if asI32 (m.regs.gprValue 0 false) < 0 then
          (probe (s.job lo (lo + (hi - lo) / 2))).run
            { side with callbacks := ⟨s.pc, s.jobs ++ [s.job lo (lo + (hi - lo) / 2)]⟩ } closed
            ⟨regs, m.mem, m.heap⟩
        else
          (probe (s.job (lo + (hi - lo) / 2 + 1) hi)).run
            { side with callbacks :=
              ⟨s.pc, s.jobs ++ [s.job (lo + (hi - lo) / 2 + 1) hi]⟩ } closed
            ⟨regs, m.mem, m.heap⟩ := by
  obtain ⟨hvalues, hx0⟩ := values_returned m.regs
  refine ⟨_, hvalues, ?_⟩
  have hresume : dispatch s.pc closed side m =
      (resumeSearch (s.job lo hi)).run (enter s.pc side) closed
        ⟨(m.regs.readGpr 30 true).1, m.mem, m.heap⟩ := by
    rw [dispatch, bsearch, Stub.run_bind_ok (run_resuming_returned true closed hlr hjobs rfl)]
  rw [hresume, resumeSearch, Stub.run_bind, Stub.run_liftM, run_readGpr]
  simp only [hx0]
  have hupdate := @update_enter s.pc side _ _ hjobs
  by_cases hzero : asI32 (m.regs.gprValue 0 false) = 0
  · rw [if_pos hzero, if_pos hzero]
    rfl
  · rw [if_neg hzero, if_neg hzero]
    by_cases hneg : asI32 (m.regs.gprValue 0 false) < 0
    · rw [if_pos hneg, if_pos hneg, modifyCallbacks, Stub.run_bind, Stub.run_modify, hupdate]
      rfl
    · rw [if_neg hneg, if_neg hneg, modifyCallbacks, Stub.run_bind, Stub.run_modify, hupdate]
      rfl

end Run

/-- Where a result of the search on numbers stands in memory. -/
def resultAddress (s : Search) (found : Option Nat) : Word := (found.map s.element).getD 0

/-- The state a search returns in. -/
structure Ends (s : Search) (inv : HostSide → Machine → Prop) (result : Word) (side : HostSide)
    (m : Machine) : Prop where
  x0 : m.regs.gprValue 0 true = result
  caller : m.regs.gprValue 30 true = s.caller
  jobs : side.callbacks.jobs = s.jobs
  inv : inv side m

section Steps

variable {s : Search} {inv : HostSide → Machine → Prop} {order : Nat → Int}
  {comparator : Comparator} (closed : Bool) {lo hi : Nat} {side : HostSide} {m : Machine}

theorem returns_finish
    (hinv : ∀ side m side' m', Undisturbed side m side' m' → inv side m → inv side' m')
    (result : Word) (hjobs : side.callbacks.jobs = s.jobs ++ [s.job lo hi]) (hm : inv side m) :
    ∃ side' m', Returns s.pc closed comparator
        ((finish (s.job lo hi) result).run side closed m) 0 side' m' ∧
      s.Ends inv result side' m' := by
  have hquiet := Quiet.finish (s.job lo hi) result side closed m
  rw [run_finish] at hquiet ⊢
  refine ⟨_, _, .returned _ _, handBack_x0 _ _ _, handBack_lr _ _ _, ?_, hinv _ _ _ _ hquiet hm⟩
  show side.callbacks.jobs.dropLast = s.jobs
  rw [hjobs, List.dropLast_concat]

/-- A question goes to the comparator, which comes back to the stub with its answer. -/
theorem returns_ask
    (hinv : ∀ side m side' m', Undisturbed side m side' m' → inv side m → inv side' m')
    (hanswers : s.Answers inv order comparator) (hback : s.ComesBack inv comparator)
    (hlt : lo < hi) (hhi : hi ≤ s.count)
    (hcallbacks : side.callbacks = ⟨s.pc, s.jobs ++ [s.job lo hi]⟩) (hm : inv side m) :
    ∃ side' m', inv side' m' ∧ m'.regs.gprValue 30 true = s.pc ∧
      side'.callbacks.jobs = s.jobs ++ [s.job lo hi] ∧
      (asI32 (m'.regs.gprValue 0 false)).sign = (order (lo + (hi - lo) / 2)).sign ∧
      ∀ n side₁ m₁, Returns s.pc closed comparator (dispatch s.pc closed side' m') n side₁ m₁ →
        Returns s.pc closed comparator ((probe (s.job lo hi)).run side closed m) (n + 1)
          side₁ m₁ := by
  have hmid : lo + (hi - lo) / 2 < s.count := by omega
  have hquiet := Quiet.probe (s.job lo hi) side closed m
  have hrun : (probe (s.job lo hi)).run side closed m =
      (⟨handOver s.key (s.element (lo + (hi - lo) / 2)) s.pc m.regs, m.mem, m.heap⟩, side,
        .ok (.call s.target)) := by
    rw [probe_ask s hlt, run_compare, hcallbacks]
    rfl
  rw [hrun] at hquiet ⊢
  have hentered : Undisturbed side m side
      ⟨(handOver s.key (s.element (lo + (hi - lo) / 2)) s.pc m.regs).writePc s.target,
        m.mem, m.heap⟩ :=
    hquiet.trans ⟨rfl, rfl, rfl, fun _ _ _ _ => rfl, rfl, rfl, rfl⟩
  have hentry := s.entry_handOver m.regs m.mem m.heap (lo + (hi - lo) / 2)
  have hm' := hinv _ _ _ _ hentered hm
  obtain ⟨hafter, hsign⟩ := hanswers _ hmid _ _ hm' hentry
  obtain ⟨hlr, hjobs⟩ := hback _ hmid _ _ hm' hentry
  refine ⟨_, _, hafter, hlr, ?_, hsign, fun n side₁ m₁ hreturns => .asked hreturns⟩
  rw [hjobs, hcallbacks]

/-- From a question on, the stub and the comparator together search the candidates. -/
theorem returns_probe
    (hinv : ∀ side m side' m', Undisturbed side m side' m' → inv side m → inv side' m')
    (hanswers : s.Answers inv order comparator) (hback : s.ComesBack inv comparator)
    (hhi : hi ≤ s.count) (hcallbacks : side.callbacks = ⟨s.pc, s.jobs ++ [s.job lo hi]⟩)
    (hm : inv side m) :
    ∃ side' m', Returns s.pc closed comparator ((probe (s.job lo hi)).run side closed m)
        (Bisect.search order lo hi).2 side' m' ∧
      s.Ends inv (s.resultAddress (Bisect.search order lo hi).1) side' m' := by
  -- one dispatch after the answer, for each way the search can go on
  have hquiet : ∀ (side : HostSide) (m : Machine) (callbacks : CallbackState)
      (regs : RegisterFile), regs.values = m.regs.values → inv side m →
      inv { side with callbacks := callbacks } ⟨regs, m.mem, m.heap⟩ :=
    fun side m callbacks regs hvalues =>
      hinv _ _ _ _ ((Undisturbed.of_values hvalues).trans (.callbacks side callbacks _))
  induction lo, hi using Bisect.search_induction order generalizing side m with
  | empty lo hi hempty =>
      rw [Bisect.search_empty hempty, probe_done s hempty]
      exact returns_finish closed hinv 0 (congrArg CallbackState.jobs hcallbacks) hm
  | hit lo hi hlt hzero =>
      obtain ⟨side', m', hm', hlr, hjobs, hsign, hasked⟩ :=
        returns_ask closed hinv hanswers hback hlt hhi hcallbacks hm
      obtain ⟨regs, hvalues, hdispatch⟩ := s.run_dispatch_resumed closed hlr hjobs
      rw [hzero, Int.sign_zero, Int.sign_eq_zero_iff_zero] at hsign
      rw [if_pos hsign] at hdispatch
      have hentered : (enter s.pc side').callbacks.jobs = s.jobs ++ [s.job lo hi] := hjobs
      obtain ⟨side₁, m₁, hreturns, hends⟩ := returns_finish closed hinv
        (s.element (lo + (hi - lo) / 2)) hentered (hquiet side' m' _ regs hvalues hm')
      rw [Bisect.search_hit hlt hzero]
      exact ⟨side₁, m₁, hasked _ _ _ (hdispatch ▸ hreturns), hends⟩
  | below lo hi hlt hneg ih =>
      obtain ⟨side', m', hm', hlr, hjobs, hsign, hasked⟩ :=
        returns_ask closed hinv hanswers hback hlt hhi hcallbacks hm
      obtain ⟨regs, hvalues, hdispatch⟩ := s.run_dispatch_resumed closed hlr hjobs
      rw [Int.sign_eq_neg_one_of_neg hneg, Int.sign_eq_neg_one_iff_neg] at hsign
      rw [if_neg (Int.ne_of_lt hsign), if_pos hsign] at hdispatch
      obtain ⟨side₁, m₁, hreturns, hends⟩ := ih (by omega) rfl
        (hquiet side' m' _ regs hvalues hm')
      rw [Bisect.search_below hlt hneg]
      exact ⟨side₁, m₁, hasked _ _ _ (hdispatch ▸ hreturns), hends⟩
  | above lo hi hlt hpos ih =>
      obtain ⟨side', m', hm', hlr, hjobs, hsign, hasked⟩ :=
        returns_ask closed hinv hanswers hback hlt hhi hcallbacks hm
      obtain ⟨regs, hvalues, hdispatch⟩ := s.run_dispatch_resumed closed hlr hjobs
      rw [Int.sign_eq_one_of_pos hpos, Int.sign_eq_one_iff_pos] at hsign
      rw [if_neg (Int.ne_of_gt hsign), if_neg (Int.not_lt.mpr (Int.le_of_lt hsign))] at hdispatch
      obtain ⟨side₁, m₁, hreturns, hends⟩ := ih hhi rfl (hquiet side' m' _ regs hvalues hm')
      rw [Bisect.search_above hlt hpos]
      exact ⟨side₁, m₁, hasked _ _ _ (hdispatch ▸ hreturns), hends⟩

/-- A fresh call asks about the middle of the whole array. -/
theorem run_dispatch_fresh (h : s.Called side m) (hfresh : s.Fresh) :
    ∃ regs, regs.values = m.regs.values ∧
      dispatch s.pc closed side m =
        (probe (s.job 0 s.count)).run
          { side with callbacks := ⟨s.pc, s.jobs ++ [s.job 0 s.count]⟩ } closed
          ⟨regs, m.mem, m.heap⟩ := by
  have hother : m.regs.gprValue 30 true = s.pc →
      ∀ job ∈ side.callbacks.jobs.getLast?, job.search ≠ true := by
    intro hlr job hjob
    rw [h.jobs] at hjob
    simp [hfresh (h.caller ▸ hlr) job hjob]
  rw [dispatch, bsearch, Stub.run_bind_ok (run_resuming_fresh true closed hother)]
  simp only [beginSearch, run_bind_readGpr, gprValue_readGpr, h.key, h.base, h.count,
    h.size, h.target, h.caller]
  apply Exists.intro
  apply And.intro
  rotate_left
  · rw [modifyCallbacks, Stub.run_bind, Stub.run_modify]
    simp only [enter, CallbackState.push, h.jobs]
    rfl
  · simp only [RegisterFile.values_readGpr]

end Steps

end Search

/-- Over an array in order by the comparator, `bsearch` finds an equal element if there is
one, in as many questions as the count can be halved; no dispatch of the stub writes memory.
The comparator comes back with the link register it was given, and the call is not the search's
own return. -/
theorem bsearch_complete (s : Search) (inv : HostSide → Machine → Prop) (order : Nat → Int)
    (comparator : Comparator) (closed : Bool) (side : HostSide) (m : Machine)
    (hinv : ∀ side m side' m', Undisturbed side m side' m' → inv side m → inv side' m')
    (hanswers : s.Answers inv order comparator) (hback : s.ComesBack inv comparator)
    (horder : Bisect.InOrder order s.count) (hcalled : s.Called side m) (hfresh : s.Fresh)
    (hm : inv side m) :
    (∃ asked side' m', Returns s.pc closed comparator (dispatch s.pc closed side m) asked
        side' m' ∧ s.Found order side' m' ∧ asked ≤ Nat.log 2 s.count + 1) ∧
    ∀ pc closed side m, (dispatch pc closed side m).1.mem = m.mem := by
  constructor
  · obtain ⟨regs, hvalues, hdispatch⟩ :=
      Search.run_dispatch_fresh closed hcalled hfresh
    have hstart := hinv _ _ _ _ ((Undisturbed.of_values hvalues).trans
      (.callbacks side ⟨s.pc, s.jobs ++ [s.job 0 s.count]⟩ _)) hm
    obtain ⟨side', m', hreturns, hends⟩ :=
      Search.returns_probe closed hinv hanswers hback le_rfl rfl hstart
    refine ⟨_, side', m', hdispatch ▸ hreturns, ⟨?_, ?_, hends.caller, hends.jobs⟩, ?_⟩
    · rintro ⟨i, hi, hi0⟩
      have hfound := Bisect.search_complete horder le_rfl (Nat.zero_le i) hi hi0
      obtain ⟨j, hj⟩ := Option.ne_none_iff_exists'.mp hfound
      obtain ⟨-, hlt, hj0⟩ := Bisect.search_sound hj
      refine ⟨j, hlt, hj0, ?_⟩
      rw [hends.x0, hj]
      rfl
    · intro hnone
      rw [hends.x0]
      cases hsearch : (Bisect.search order 0 s.count).1 with
      | none => rfl
      | some j =>
          obtain ⟨-, hlt, hj0⟩ := Bisect.search_sound hsearch
          exact absurd hj0 (hnone j hlt)
    · apply Bisect.asked_le.trans
      split
      · rw [Nat.sub_zero]
      · exact Nat.zero_le _
  · exact fun pc closed side m => (Quiet.bsearch (enter pc side) closed m).mem

/-- A comparator on bytes: the difference of what the two pointers point at. -/
def compareBytes : Comparator := fun side m =>
  let difference := (peek m.mem.pages (m.regs.gprValue 0 true)).setWidth 64 -
    (peek m.mem.pages (m.regs.gprValue 1 true)).setWidth 64
  (side, ⟨m.regs.writeGpr 0 true difference, m.mem, m.heap⟩)

/-- A search for the first byte of a page in the four bytes after it. -/
def byteSearch : Search where
  pc := 0xFFFF0010
  jobs := []
  key := 0x500000
  base := 0x500001
  count := 4
  size := 1
  target := 0x400080
  caller := 0x400100

/-- The registers of a call of `bsearch`. -/
def Search.regs (s : Search) : RegisterFile :=
  (((((RegisterFile.new.writeGpr 0 true s.key).writeGpr 1 true s.base).writeGpr 2 true
    (BitVec.ofNat 64 s.count)).writeGpr 3 true (BitVec.ofNat 64 s.size)).writeGpr 4 true
    s.target).writeGpr 30 true s.caller

theorem called_regs (s : Search) (mem : Memory) (heap : HeapState) (hcount : s.count < 2 ^ 64)
    (hsize : s.size < 2 ^ 64) (hjobs : s.jobs = []) :
    s.Called HostSide.idle ⟨s.regs, mem, heap⟩ := by
  have hskip : ∀ (r : RegisterFile) (i j : Nat) (value : Word), i < 31 → j ≠ i →
      (r.writeGpr i true value).gprValue j true = r.gprValue j true :=
    fun r i j value hi hne => gprValue_writeGpr_of_ne r value true hi hne
  constructor <;> simp [Search.regs, hskip, gprValue_writeGpr_same, hjobs, HostSide.idle]
  · exact hcount
  · exact hsize
  · rfl

/-- The bytes after the first are in order, seen from the first. -/
def byteOrder (i : Nat) : Int := 4 - 2 * i

theorem answers_compareBytes : byteSearch.Answers
    (fun _ m => m.mem = textMemory [5, 1, 3, 5, 7]) byteOrder compareBytes := by
  have hsign : ∀ i < 4, (asI32 (((peek (textMemory [5, 1, 3, 5, 7]).pages 0x500000).setWidth 64 -
      (peek (textMemory [5, 1, 3, 5, 7]).pages (byteSearch.element i)).setWidth 64) &&&
      0xFFFFFFFF)).sign = (byteOrder i).sign := by decide
  rintro i hi side ⟨regs, mem, heap⟩ rfl hentry
  refine ⟨rfl, ?_⟩
  unfold compareBytes
  rw [hentry.key, hentry.element, gprValue_writeGpr_narrow _ _ false (by decide)]
  exact hsign i hi

/-- The byte 5 is found among 1, 3, 5 and 7. -/
theorem bsearch_complete_bytes :
    ∃ asked side' m', Returns 0xFFFF0010 false compareBytes (dispatch 0xFFFF0010 false HostSide.idle
        ⟨byteSearch.regs, textMemory [5, 1, 3, 5, 7], HeapState.new⟩) asked side' m' ∧
      m'.regs.gprValue 0 true = 0x500003 ∧ asked ≤ 3 := by
  have horder : ∀ j < 4, ∀ i ≤ j, (byteOrder j).sign ≤ (byteOrder i).sign := by decide
  obtain ⟨⟨asked, side', m', hreturns, hfound, hasked⟩, -⟩ := bsearch_complete byteSearch
    (fun _ m => m.mem = textMemory [5, 1, 3, 5, 7]) byteOrder compareBytes false
    HostSide.idle ⟨byteSearch.regs, textMemory [5, 1, 3, 5, 7], HeapState.new⟩
    (fun _ _ _ _ h hm => h.mem.trans hm) answers_compareBytes
    (fun i hi side m hm hentry => ⟨(gprValue_writeGpr_of_ne _ _ true (by decide)
      (by decide)).trans hentry.lr, rfl⟩)
    (fun i j hij hj => horder j hj i hij)
    (called_regs byteSearch _ _ (by decide) (by decide) rfl) (fun h => absurd h (by decide)) rfl
  refine ⟨asked, side', m', hreturns, ?_, ?_⟩
  · obtain ⟨i, -, hi0, hx0⟩ := hfound.equal ⟨2, by decide, by decide⟩
    have hi : i = 2 := by
      unfold byteOrder at hi0
      omega
    subst hi
    exact hx0
  · have hlog : Nat.log 2 4 = 2 := Nat.log_pow (by decide) 2
    have hcount : byteSearch.count = 4 := rfl
    rwa [hcount, hlog] at hasked

/-- A comparator that calls on the way: it keeps its return address in a register of its own
and returns by that one. -/
def compareByCopy : Comparator := fun side m =>
  (side, ⟨((m.regs.writeGpr 0 true 0).writeGpr 2 true 0).writeGpr 30 true 0x400090, m.mem, m.heap⟩)

def oneByteSearch : Search := { byteSearch with count := 1 }

/-- A comparator that comes back with another link register is taken for a fresh call, and
the equal element is missed. -/
theorem not_bsearch_complete :
    ¬ ∀ (s : Search) (inv : HostSide → Machine → Prop) (order : Nat → Int)
      (comparator : Comparator) (closed : Bool) (side : HostSide) (m : Machine),
      (∀ side m side' m', Undisturbed side m side' m' → inv side m → inv side' m') →
      s.Answers inv order comparator → Bisect.InOrder order s.count → s.Called side m → s.Fresh →
      inv side m →
      ∃ asked side' m', Returns s.pc closed comparator (dispatch s.pc closed side m) asked
        side' m' ∧ s.Found order side' m' := by
  intro hall
  have hanswers : oneByteSearch.Answers (fun _ _ => True) (fun _ => 0) compareByCopy := by
    intro i hi side m _ hentry
    refine ⟨trivial, ?_⟩
    unfold compareByCopy
    rw [gprValue_writeGpr_of_ne _ _ false (by decide) (by decide),
      gprValue_writeGpr_of_ne _ _ false (by decide) (by decide),
      gprValue_writeGpr_narrow _ _ false (by decide)]
    rfl
  have hcalled := called_regs oneByteSearch Memory.new HeapState.new (by decide) (by decide) rfl
  have hfresh : oneByteSearch.Fresh := fun h => absurd h (by decide)
  obtain ⟨asked, side', m', hreturns, hfound⟩ := hall oneByteSearch (fun _ _ => True)
    (fun _ => 0) compareByCopy false HostSide.idle _ (fun _ _ _ _ _ _ => trivial) hanswers
    (fun _ _ _ _ => le_rfl) hcalled hfresh trivial
  obtain ⟨regs, -, hdispatch⟩ := Search.run_dispatch_fresh false hcalled hfresh
  rw [hdispatch, Search.probe_ask _ (by decide), run_compare] at hreturns
  cases hreturns with
  | asked hreturns =>
      -- the registers it comes back with, read as the arguments of a fresh call
      generalize hm : (compareByCopy.answer _ _ _).2 = m₁ at hreturns
      have hx2 : m₁.regs.gprValue 2 true = 0 := by
        rw [← hm]
        exact (gprValue_writeGpr_of_ne _ _ true (by decide) (by decide)).trans
          (gprValue_writeGpr_same _ _ (by decide))
      have hlr : m₁.regs.gprValue 30 true = 0x400090 := by
        rw [← hm]
        exact gprValue_writeGpr_same _ _ (by decide)
      let again : Search :=
        { pc := oneByteSearch.pc, jobs := [oneByteSearch.job 0 1], key := m₁.regs.gprValue 0 true,
          base := m₁.regs.gprValue 1 true, count := 0,
          size := (m₁.regs.gprValue 3 true).toNat, target := m₁.regs.gprValue 4 true,
          caller := m₁.regs.gprValue 30 true }
      have hother : (0x400090 : Word) ≠ 0xFFFF0010 := by decide
      have hnocaller : again.Fresh := fun h => absurd (hlr.symm.trans h) hother
      have hagain : again.Called
          { HostSide.idle with callbacks := ⟨oneByteSearch.pc, [oneByteSearch.job 0 1]⟩ } m₁ :=
        ⟨rfl, rfl, congrArg BitVec.toNat hx2, rfl, rfl, rfl, rfl⟩
      obtain ⟨regs', -, hsecond⟩ := Search.run_dispatch_fresh false hagain hnocaller
      have hdone : probe (again.job 0 again.count) = finish (again.job 0 again.count) 0 :=
        again.probe_done (Nat.lt_irrefl 0)
      rw [hdone, run_finish] at hsecond
      have hreturned := hsecond ▸ hreturns
      cases hreturned
      obtain ⟨i, hi, -, hx0⟩ := hfound.equal ⟨0, by decide, rfl⟩
      obtain rfl : i = 0 := Nat.lt_one_iff.mp hi
      rw [handBack_x0] at hx0
      exact absurd hx0 (by decide)

end Hosted

end Playground
