/-
`qsort`: a binary insertion sort that asks the program about one pair of elements at a time.
What a placed element does to the array is said over the list of its elements.
-/
import Playground.Hosted.Bsearch
import Playground.Hosted.Memmove
import Playground.Hosted.PrintfCalls
import Playground.Library.BinaryInsertion

namespace Playground

namespace Hosted

open Exec Memory

/-- Move the element `next` down to the place `lo`, and those between them up by one. -/
def insert (job : Job) : Exec Unit :=
  if job.lo = job.next then pure ()
  else do
    let source := job.element job.next
    let dest := job.element job.lo
    let held ← attempt fun m => m.mem.readEach source job.size
    copyBytesBack dest (dest + BitVec.ofNat 64 job.size) (source.toNat - dest.toNat)
    writeBytesAt dest held

/-- Go on with a job until it has something to ask. -/
def goOn (job : Job) : Stub HostOutcome :=
  if job.lo < job.hi then compare job (job.element job.next) (job.element job.mid)
  else do
    insert job
    let placed := { job with next := job.next + 1, lo := 0, hi := job.next + 1 }
    modifyCallbacks fun callbacks => callbacks.update placed
    if _hlast : placed.count ≤ placed.next then finish placed 0 else goOn placed
termination_by job.count - job.next
decreasing_by
  have hlt : job.next + 1 < job.count := Nat.lt_of_not_le _hlast
  show job.count - (job.next + 1) < job.count - job.next
  omega

/-- A fresh call: note it as a job, from its arguments. -/
def beginSort : Stub HostOutcome := do
  let base ← readGpr 0 true
  let count ← readGpr 1 true
  let size ← readGpr 2 true
  if count.toNat < 2 ∨ size = 0 then return .continue
  else do
    let target ← readGpr 3 true
    let caller ← readGpr 30 true
    let job : Job :=
      { search := false, base := base, count := count.toNat, size := size.toNat, compare := target,
        key := 0, caller := caller, next := 1, lo := 0, hi := 1 }
    modifyCallbacks fun callbacks => callbacks.push job
    goOn job

/-- The comparator's answer halves the places that are left. -/
def resumeSort (job : Job) : Stub HostOutcome := do
  let order ← readGpr 0 false
  let job := if asI32 order < 0 then { job with hi := job.mid } else { job with lo := job.mid + 1 }
  modifyCallbacks fun callbacks => callbacks.update job
  goOn job

/-- qsort(base, count, size, compare). -/
def qsort : Stub HostOutcome := do
  match ← resuming false with
  | some job => resumeSort job
  | none => beginSort

/-- Code that leaves the registers and the heap's books. -/
def MemoryOnly {α : Type} (x : Exec α) : Prop :=
  ∀ m, (x.run m).1.regs = m.regs ∧ (x.run m).1.heap = m.heap

namespace MemoryOnly

variable {α β : Type}

theorem bind {x : Exec α} {f : α → Exec β} (hx : MemoryOnly x) (hf : ∀ a, MemoryOnly (f a)) :
    MemoryOnly (x >>= f) := by
  intro m
  have hfirst := hx m
  rw [run_bind]
  rcases hrun : x.run m with ⟨m', e | a⟩
  · rw [hrun] at hfirst
    exact hfirst
  · rw [hrun] at hfirst
    obtain ⟨hregs, hheap⟩ := hf a m'
    exact ⟨hregs.trans hfirst.1, hheap.trans hfirst.2⟩

theorem attempt (f : Machine → Except EmuError α) : MemoryOnly (Exec.attempt f) :=
  fun _ => ⟨rfl, rfl⟩

theorem writeU8 (addr : Word) (byte : Byte) : MemoryOnly (Exec.writeU8 addr byte) :=
  fun _ => ⟨rfl, rfl⟩

theorem copyBytesBack (source dest : Word) (n : Nat) :
    MemoryOnly (copyBytesBack source dest n) := by
  induction n with
  | zero => exact fun _ => ⟨rfl, rfl⟩
  | succ n ih => exact (attempt _).bind fun b => (writeU8 _ b).bind fun _ => ih

theorem writeBytesAt (addr : Word) (bytes : List Byte) : MemoryOnly (writeBytesAt addr bytes) := by
  induction bytes generalizing addr with
  | nil => exact fun _ => ⟨rfl, rfl⟩
  | cons b bytes ih => exact (writeU8 addr b).bind fun _ => ih (addr + 1)

theorem insert (job : Job) : MemoryOnly (insert job) := by
  unfold Hosted.insert
  split
  · exact fun _ => ⟨rfl, rfl⟩
  · exact (attempt _).bind fun held =>
      (copyBytesBack _ _ _).bind fun _ => writeBytesAt _ held

end MemoryOnly

/-- The arguments of a call. -/
structure Sorting where
  pc : Word
  jobs : List Job
  base : Word
  count : Nat
  size : Nat
  target : Word
  caller : Word

namespace Sorting

variable (s : Sorting)

/-- The job of the call: the element being placed, and the places still left for it. -/
def job (next lo hi : Nat) : Job :=
  { search := false, base := s.base, count := s.count, size := s.size, compare := s.target,
    key := 0, caller := s.caller, next := next, lo := lo, hi := hi }

def element (i : Nat) : Word := s.base + BitVec.ofNat 64 (i * s.size)

def bytesAt (p : Pages) (i : Nat) : List Byte := peekAll p (s.element i) s.size

def elements (p : Pages) : List (List Byte) := (List.range s.count).map (s.bytesAt p)

/-- The array does not run past the end of the address space. -/
def Fits : Prop := s.base.toNat + s.count * s.size ≤ 2 ^ 64

/-- Every byte of the array is in a mapped page. -/
def Resident (m : Memory) : Prop :=
  ∀ i < s.count * s.size, pageBase (s.base + BitVec.ofNat 64 i) ∈ m.pages

/-- The addresses of the array. -/
def Covers (a : Word) : Prop := ∃ i < s.count * s.size, a = s.base + BitVec.ofNat 64 i

/-- A memory that differs in the bytes of the array at most. -/
structure Outside (m m' : Memory) : Prop where
  peek : ∀ a, ¬ s.Covers a → peek m'.pages a = peek m.pages a
  keeps : ∀ base ∈ m.pages, base ∈ m'.pages
  zeroFill : m'.zeroFill = m.zeroFill

variable {s} {m m' m'' : Memory}

theorem Outside.refl (m : Memory) : s.Outside m m := ⟨fun _ _ => rfl, fun _ => id, rfl⟩

theorem Outside.trans (h : s.Outside m m') (h' : s.Outside m' m'') : s.Outside m m'' :=
  ⟨fun a ha => (h'.peek a ha).trans (h.peek a ha), fun base hb => h'.keeps base (h.keeps base hb),
    h'.zeroFill.trans h.zeroFill⟩

theorem Resident.mono (h : s.Resident m) (h' : ∀ base ∈ m.pages, base ∈ m'.pages) :
    s.Resident m' := fun i hi => h' _ (h i hi)

/-- What a write of a stretch of the array leaves, place by place. -/
theorem written_at {start : Nat} {bytes : List Byte} (hfits : s.Fits)
    (hend : start + bytes.length ≤ s.count * s.size)
    (h : Written m (s.base + BitVec.ofNat 64 start) bytes m') {i : Nat}
    (hi : i < s.count * s.size) :
    peek m'.pages (s.base + BitVec.ofNat 64 i) =
      if start ≤ i ∧ i < start + bytes.length then bytes.getD (i - start) 0
      else peek m.pages (s.base + BitVec.ofNat 64 i) := by
  unfold Fits at hfits
  have hbase := s.base.isLt
  rw [h.changed]
  have hsub : (s.base + BitVec.ofNat 64 i - (s.base + BitVec.ofNat 64 start)).toNat =
      if start ≤ i then i - start else 2 ^ 64 + i - start := by
    rw [BitVec.toNat_sub, BitVec.toNat_add, BitVec.toNat_add, BitVec.toNat_ofNat,
      BitVec.toNat_ofNat]
    split <;> omega
  rw [hsub]
  by_cases hle : start ≤ i
  · rw [if_pos hle]
    by_cases hlt : i < start + bytes.length
    · rw [if_pos ⟨hle, hlt⟩, List.getD_eq_getElem _ _ (by omega),
        List.getD_eq_getElem _ _ (by omega)]
    · rw [if_neg fun h => hlt h.2, List.getD_eq_default _ _ (by omega)]
  · rw [if_neg hle, if_neg fun h => hle h.1, List.getD_eq_default _ _ (by omega)]

/-- A write of a stretch of the array leaves the rest of memory. -/
theorem outside_of_written {start : Nat} {bytes : List Byte}
    (hend : start + bytes.length ≤ s.count * s.size)
    (h : Written m (s.base + BitVec.ofNat 64 start) bytes m') : s.Outside m m' := by
  refine ⟨fun a ha => ?_, h.keeps, h.zeroFill⟩
  rw [h.changed, List.getD_eq_default]
  by_contra hin
  apply ha
  refine ⟨start + (a - (s.base + BitVec.ofNat 64 start)).toNat, by omega, ?_⟩
  rw [BitVec.ofNat_add, BitVec.ofNat_toNat, BitVec.setWidth_eq, ← BitVec.add_assoc]
  exact (add_sub_cancel _ a).symm

theorem peekAll_eq {p p' : Pages} {addr addr' : Word} {n : Nat}
    (h : ∀ i < n, peek p (addr + BitVec.ofNat 64 i) = peek p' (addr' + BitVec.ofNat 64 i)) :
    peekAll p addr n = peekAll p' addr' n := by
  apply List.ext_getElem? fun i => ?_
  rcases Nat.lt_or_ge i n with hi | hi
  · rw [getElem?_peekAll hi, getElem?_peekAll hi, h i hi]
  · rw [List.getElem?_eq_none (by rw [length_peekAll]; exact hi),
      List.getElem?_eq_none (by rw [length_peekAll]; exact hi)]

theorem getD_peekAll {p : Pages} {addr : Word} {n i : Nat} (hi : i < n) :
    (peekAll p addr n).getD i 0 = peek p (addr + BitVec.ofNat 64 i) := by
  rw [List.getD_eq_getElem?_getD, getElem?_peekAll hi, Option.getD_some]

theorem writeBytesAt_ok {addr : Word} {bytes : List Byte} {m : Machine}
    (h : ∀ i < bytes.length, pageBase (addr + BitVec.ofNat 64 i) ∈ m.mem.pages) :
    ((writeBytesAt addr bytes).run m).2 = .ok () := by
  induction bytes generalizing addr m with
  | nil => rfl
  | cons b bytes ih =>
      have hhead := h 0 (Nat.succ_pos _)
      rw [BitVec.add_zero] at hhead
      have hwrite := (m.mem.writeU8_ok_iff addr b).mpr (.inl hhead)
      rw [writeBytesAt, run_bind, Exec.writeU8, run_store, hwrite]
      refine ih fun i hi => ?_
      rw [add_one_add_ofNat]
      exact (written_writeU8 hwrite).keeps _ (h (i + 1) (Nat.succ_lt_succ hi))

theorem element_toNat (hfits : s.Fits) {i : Nat} (hi : i < s.count) :
    (s.element i).toNat = s.base.toNat + i * s.size := by
  unfold Fits at hfits
  have hbase := s.base.isLt
  have hle : (i + 1) * s.size ≤ s.count * s.size := Nat.mul_le_mul_right _ hi
  rw [Nat.succ_mul] at hle
  have hlt : s.base.toNat + i * s.size < 2 ^ 64 := by
    rcases Nat.eq_zero_or_pos s.size with hzero | hpos
    · rw [hzero, Nat.mul_zero]
      exact hbase
    · omega
  rw [element, BitVec.toNat_add, BitVec.toNat_ofNat, Nat.add_mod_mod, Nat.mod_eq_of_lt hlt]

/-- Which element stands in a place once element `next` has gone to `lo`. -/
def moved (next lo k : Nat) : Nat :=
  if k < lo then k else if k = lo then next else if k ≤ next then k - 1 else k

theorem moved_self (next k : Nat) : moved next next k = k := by
  unfold moved
  by_cases hlt : k < next
  · rw [if_pos hlt]
  · by_cases heq : k = next
    · rw [if_neg hlt, if_pos heq, heq]
    · rw [if_neg hlt, if_neg heq, if_neg (by omega)]

/-- An element placed in a run that stands in front of it. -/
theorem getElem?_moved {α : Type} {run rest : List α} {x : α} {lo : Nat}
    (hlo : lo ≤ run.length) (k : Nat) :
    (run.take lo ++ x :: run.drop lo ++ rest)[k]? = (run ++ x :: rest)[moved run.length lo k]? := by
  have hlen : (run.take lo ++ x :: run.drop lo).length = run.length + 1 := by
    simp
    omega
  have htake : (run.take lo).length = lo := List.length_take_of_le hlo
  unfold moved
  rcases Nat.lt_trichotomy k lo with hbelow | rfl | habove
  · rw [if_pos hbelow, List.append_assoc, List.getElem?_append_left (by omega),
      List.getElem?_take_of_lt hbelow, List.getElem?_append_left (by omega)]
  · rw [if_neg (Nat.lt_irrefl k), if_pos rfl, List.append_assoc,
      List.getElem?_append_right htake.le, htake, Nat.sub_self, List.cons_append,
      List.getElem?_append_right le_rfl, Nat.sub_self, List.getElem?_cons_zero,
      List.getElem?_cons_zero]
  · rw [if_neg (by omega), if_neg (by omega)]
    rcases Nat.lt_or_ge run.length k with hbehind | hwithin
    · have hpast : k - run.length = k - (run.length + 1) + 1 := by omega
      rw [if_neg (by omega), List.getElem?_append_right (by omega), hlen,
        List.getElem?_append_right (by omega), hpast, List.getElem?_cons_succ]
    · have hpast : k - lo = k - 1 - lo + 1 := by omega
      rw [if_pos hwithin, List.getElem?_append_left (by omega),
        List.getElem?_append_right (by omega), htake, hpast, List.getElem?_cons_succ,
        List.getElem?_drop, List.getElem?_append_left (by omega)]
      congr 1
      omega

section Insert

variable {next lo hi : Nat} {mach : Machine}

theorem element_add (i j : Nat) :
    s.element i + BitVec.ofNat 64 j = s.base + BitVec.ofNat 64 (i * s.size + j) := by
  rw [element, BitVec.add_assoc, ← BitVec.ofNat_add]

/-- The element is read while the ones it passes are still below it. -/
theorem readEach_element (hres : s.Resident m) (hnext : next < s.count) :
    m.readEach (s.element next) s.size = .ok (s.bytesAt m.pages next) := by
  have hle : (next + 1) * s.size ≤ s.count * s.size := Nat.mul_le_mul_right _ hnext
  rw [Nat.succ_mul] at hle
  have hholds : m.Holds (s.element next, s.bytesAt m.pages next) := holds_peekAll fun i hi => by
    rw [isMapped_iff, element_add]
    exact .inl (hres _ (by omega))
  have hread := readEach_of_holds hholds
  rwa [bytesAt, length_peekAll] at hread

/-- The elements from `lo` on move up by one, into the place of the one taken out. -/
theorem run_slide (hfits : s.Fits) (hres : s.Resident mach.mem) (hlo : lo ≤ next)
    (hnext : next < s.count) :
    ((copyBytesBack (s.element lo) (s.element lo + BitVec.ofNat 64 s.size)
        ((next - lo) * s.size)).run mach).2 = .ok () ∧
      Written mach.mem (s.base + BitVec.ofNat 64 (lo * s.size + s.size))
        (peekAll mach.mem.pages (s.element lo) ((next - lo) * s.size))
        ((copyBytesBack (s.element lo) (s.element lo + BitVec.ofNat 64 s.size)
          ((next - lo) * s.size)).run mach).1.mem := by
  have hle : (next + 1) * s.size ≤ s.count * s.size := Nat.mul_le_mul_right _ hnext
  rw [Nat.succ_mul] at hle
  have hspan : lo * s.size + (next - lo) * s.size = next * s.size := by
    rw [← Nat.add_mul, Nat.add_sub_cancel' hlo]
  unfold Fits at hfits
  have hbase := s.base.isLt
  have hsmall : (next - lo) * s.size < 2 ^ 64 := by
    rcases Nat.eq_zero_or_pos s.size with hzero | hpos
    · rw [hzero, Nat.mul_zero]
      exact Nat.two_pow_pos 64
    · omega
  rw [← element_add]
  refine copyBytesBack_behind hsmall (fun i hi => ?_) (.inl fun i hi => ?_) fun i hi j hj => ?_
  · rw [isMapped_iff, element_add]
    exact .inl (hres _ (by omega))
  · rw [element_add, BitVec.add_assoc, ← BitVec.ofNat_add]
    exact hres _ (by omega)
  · rw [element_add, element_add, BitVec.add_assoc, ← BitVec.ofNat_add]
    have hlt : lo * s.size + s.size + i < s.count * s.size := by omega
    exact add_ofNat_ne (n := s.count * s.size) hfits hfits (by omega) hlt (by omega)

/-- Placing an element moves whole elements, and writes nothing but the array. -/
theorem run_insert (hfits : s.Fits) (hres : s.Resident mach.mem) (hlo : lo ≤ next)
    (hnext : next < s.count) :
    ∃ mem', (insert (s.job next lo hi)).run mach = (⟨mach.regs, mem', mach.heap⟩, .ok ()) ∧
      s.Outside mach.mem mem' ∧
      ∀ k < s.count, s.bytesAt mem'.pages k = s.bytesAt mach.mem.pages (moved next lo k) := by
  by_cases heq : lo = next
  · refine ⟨mach.mem, ?_, .refl _, fun k _ => by rw [heq, moved_self]⟩
    have hjob : (s.job next lo hi).lo = (s.job next lo hi).next := heq
    rw [insert, if_pos hjob]
    rfl
  have hlt : lo < next := Nat.lt_of_le_of_ne hlo heq
  have hjob : (s.job next lo hi).lo ≠ (s.job next lo hi).next := heq
  have hle : (next + 1) * s.size ≤ s.count * s.size := Nat.mul_le_mul_right _ hnext
  have hspan : lo * s.size + (next - lo) * s.size = next * s.size := by
    rw [← Nat.add_mul, Nat.add_sub_cancel' hlo]
  have hstep : (lo + 1) * s.size ≤ next * s.size := Nat.mul_le_mul_right _ hlt
  rw [Nat.succ_mul] at hle hstep
  have hn : (s.element next).toNat - (s.element lo).toNat = (next - lo) * s.size := by
    rw [element_toNat hfits hnext, element_toNat hfits (hlt.trans hnext)]
    omega
  have hread : (attempt fun m : Machine => m.mem.readEach (s.element next) s.size).run mach =
      (mach, .ok (s.bytesAt mach.mem.pages next)) := by
    rw [run_attempt, readEach_element hres hnext]
  obtain ⟨hslid, hup⟩ := run_slide hfits hres hlo hnext
  have honly := MemoryOnly.insert (s.job next lo hi) mach
  have hrun : insert (s.job next lo hi) = (do
      let held ← attempt fun m => m.mem.readEach (s.element next) s.size
      copyBytesBack (s.element lo) (s.element lo + BitVec.ofNat 64 s.size)
        ((next - lo) * s.size)
      writeBytesAt (s.element lo) held) := by
    rw [insert, if_neg hjob, ← hn]
    rfl
  rw [hrun, run_bind_ok hread] at honly ⊢
  rcases hslide : (copyBytesBack (s.element lo) (s.element lo + BitVec.ofNat 64 s.size)
    ((next - lo) * s.size)).run mach with ⟨mid, r⟩
  rw [hslide] at hslid hup
  obtain rfl : r = .ok () := hslid
  rw [run_bind_ok hslide] at honly ⊢
  have hsize : (s.bytesAt mach.mem.pages next).length = s.size := length_peekAll _ _ _
  have hput : ((writeBytesAt (s.element lo) (s.bytesAt mach.mem.pages next)).run mid).2 =
      .ok () := by
    refine writeBytesAt_ok fun i hi => hup.keeps _ ?_
    rw [element_add]
    exact hres _ (by omega)
  unfold Fits at hfits
  obtain ⟨hdown, -⟩ := run_writeBytesAt (by omega) hput
  rcases hwrite : (writeBytesAt (s.element lo) (s.bytesAt mach.mem.pages next)).run mid
    with ⟨⟨regs, mem, heap⟩, r⟩
  rw [hwrite] at hput hdown honly
  obtain rfl : r = .ok () := hput
  obtain ⟨rfl, rfl⟩ := honly
  have hlen : (peekAll mach.mem.pages (s.element lo) ((next - lo) * s.size)).length =
      (next - lo) * s.size := length_peekAll _ _ _
  have hupEnd : lo * s.size + s.size + (peekAll mach.mem.pages (s.element lo)
      ((next - lo) * s.size)).length ≤ s.count * s.size := by omega
  have hdownEnd : lo * s.size + (s.bytesAt mach.mem.pages next).length ≤ s.count * s.size := by
    omega
  refine ⟨mem, rfl, (outside_of_written hupEnd hup).trans (outside_of_written hdownEnd hdown),
    fun k hk => peekAll_eq fun i hi => ?_⟩
  have hkEnd : (k + 1) * s.size ≤ s.count * s.size := Nat.mul_le_mul_right _ hk
  rw [Nat.succ_mul] at hkEnd
  rw [element_add, element_add, written_at hfits hdownEnd hdown (by omega),
    written_at hfits hupEnd hup (by omega), hlen, hsize]
  -- by where the place stands to the two ends of the move
  rcases Nat.lt_trichotomy k lo with hbelow | rfl | habove
  · have hmul : (k + 1) * s.size ≤ lo * s.size := Nat.mul_le_mul_right _ hbelow
    rw [Nat.succ_mul] at hmul
    have hmoved : moved next lo k = k := if_pos hbelow
    have houtHeld : ¬ (lo * s.size ≤ k * s.size + i ∧ k * s.size + i < lo * s.size + s.size) := by
      omega
    have houtSlid : ¬ (lo * s.size + s.size ≤ k * s.size + i ∧
        k * s.size + i < lo * s.size + s.size + (next - lo) * s.size) := by omega
    rw [if_neg houtHeld, if_neg houtSlid, hmoved]
  · have hmoved : moved next k k = next := (if_neg (Nat.lt_irrefl k)).trans (if_pos rfl)
    have hinHeld : k * s.size ≤ k * s.size + i ∧ k * s.size + i < k * s.size + s.size := by omega
    rw [if_pos hinHeld, hmoved, bytesAt, Nat.add_sub_cancel_left, getD_peekAll hi, element_add]
  · have hmul : (lo + 1) * s.size ≤ k * s.size := Nat.mul_le_mul_right _ habove
    rw [Nat.succ_mul] at hmul
    have houtHeld : ¬ (lo * s.size ≤ k * s.size + i ∧ k * s.size + i < lo * s.size + s.size) := by
      omega
    rw [if_neg houtHeld]
    rcases Nat.lt_or_ge next k with hbehind | hwithin
    · have hmul' : (next + 1) * s.size ≤ k * s.size := Nat.mul_le_mul_right _ hbehind
      rw [Nat.succ_mul] at hmul'
      have hmoved : moved next lo k = k := by
        unfold moved
        rw [if_neg (by omega), if_neg (by omega), if_neg (by omega)]
      have houtSlid : ¬ (lo * s.size + s.size ≤ k * s.size + i ∧
          k * s.size + i < lo * s.size + s.size + (next - lo) * s.size) := by omega
      rw [if_neg houtSlid, hmoved]
    · have hmul' : k * s.size ≤ next * s.size := Nat.mul_le_mul_right _ hwithin
      have hpred : k * s.size = (k - 1) * s.size + s.size := by
        rw [← Nat.succ_mul]
        exact congrArg (· * s.size) (by omega)
      have hmoved : moved next lo k = k - 1 := by
        unfold moved
        rw [if_neg (by omega), if_neg (by omega), if_pos hwithin]
      have hinSlid : lo * s.size + s.size ≤ k * s.size + i ∧
          k * s.size + i < lo * s.size + s.size + (next - lo) * s.size := by omega
      rw [if_pos hinSlid, hmoved, getD_peekAll (by omega), element_add]
      congr 3
      omega

/-- The elements once one of them is placed in the run in front of it. -/
theorem elements_insert {p p' : Pages} {run rest : List (List Byte)} {x : List Byte}
    (helements : s.elements p = run ++ x :: rest) (hlo : lo ≤ run.length)
    (h : ∀ k < s.count, s.bytesAt p' k = s.bytesAt p (moved run.length lo k)) :
    s.elements p' = run.take lo ++ x :: run.drop lo ++ rest := by
  have hcount : s.count = run.length + (rest.length + 1) := by
    have hlen := congrArg List.length helements
    rwa [elements, List.length_map, List.length_range, List.length_append] at hlen
  apply List.ext_getElem? fun k => ?_
  rw [getElem?_moved hlo, ← helements, elements, elements, List.getElem?_map, List.getElem?_map]
  rcases Nat.lt_or_ge k s.count with hk | hk
  · have hmoved : moved run.length lo k < s.count := by
      unfold moved
      split <;> [exact hk; split <;> [omega; split <;> omega]]
    rw [List.getElem?_range hk, List.getElem?_range hmoved]
    exact congrArg some (h k hk)
  · have hmoved : moved run.length lo k = k := by
      unfold moved
      rw [if_neg (by omega), if_neg (by omega), if_neg (by omega)]
    rw [hmoved, List.getElem?_eq_none (by rw [List.length_range]; exact hk)]
    rfl

end Insert

end Sorting

end Hosted

end Playground
