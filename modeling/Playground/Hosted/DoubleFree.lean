/-
What `free` and `realloc` say about an address they cannot take.  The reason is read off the
coalesced free list, which knows where free memory begins and not which addresses were
handed out, so it is the right one exactly where the two agree.
-/
import Playground.Hosted.Heap

namespace Playground

namespace Hosted

/-- The addresses allocations have returned, and of them the ones released and not handed
out again since. -/
structure AddressBook where
  returned : Finset Nat
  released : Finset Nat

namespace AddressBook

def empty : AddressBook := ⟨∅, ∅⟩

/-- An allocation's answer. -/
def noteAlloc (book : AddressBook) : Option Nat → AddressBook
  | some addr => ⟨insert addr book.returned, book.released.erase addr⟩
  | none => book

/-- A release that was taken or refused. -/
def noteRelease (book : AddressBook) (addr : Nat) : Except String Unit → AddressBook
  | .ok () => { book with released := insert addr book.released }
  | .error _ => book

/-- What a call on the allocator adds. -/
def after (book : AddressBook) (h : HeapState) : HeapCall → AddressBook
  | .alloc size => book.noteAlloc (h.alloc size).2
  | .release addr => book.noteRelease addr (h.release addr).2

end AddressBook

/-- The tables a sequence of allocator calls leads to from the empty heap, and the book
kept of them. -/
inductive History : HeapTables → AddressBook → Prop
  | empty : History HeapState.new.toHeapTables .empty
  | call {h : HeapState} {book : AddressBook} (hist : History h.toHeapTables book)
      (call : HeapCall) : History (call.run h).toHeapTables (book.after h call)

/-- Both calls end the program with this reason for the pointer in x0. -/
def Reports (m : Machine) (why : String) : Prop :=
  (free.run m).2 = .error (wildPointer (m.regs.gprValue 0 true) why "free") ∧
    (realloc.run m).2 = .error (wildPointer (m.regs.gprValue 0 true) why "realloc")

def doubleFree : String := "already freed (double free)"

def notFromMalloc : String := "not an address malloc returned"

/-- A freed address is reported as such, and so is one no allocation has returned.  A null
pointer asks for no release. -/
def Diagnosed (book : AddressBook) (m : Machine) : Prop :=
  ((m.regs.gprValue 0 true).toNat ∈ book.released → Reports m doubleFree) ∧
    (m.regs.gprValue 0 true ≠ 0 → (m.regs.gprValue 0 true).toNat ∉ book.returned →
      Reports m notFromMalloc)

/-- A byte of a live block. -/
def InLive (t : HeapTables) (a : Nat) : Prop :=
  ∃ addr s, t.live.lookup addr = some s ∧ addr ≤ a ∧ a < addr + s

/-- Free memory begins here: a byte below the frontier that no live block holds, at the
start of the window or right above a live block. -/
structure OpensFreeRun (t : HeapTables) (a : Nat) : Prop where
  inWindow : heapBase ≤ a ∧ a < t.next
  notLive : ¬ InLive t a
  above : a = heapBase ∨ InLive t (a - 1)

section Tables

variable {t : HeapTables} {a : Nat}

theorem not_inLive_of_heldBy (ht : t.Tiled) (h : HeldBy t.free a) : ¬ InLive t a := by
  rintro ⟨addr, s, hs, hlo, hhi⟩
  obtain ⟨b, hb, hlo', hhi'⟩ := h
  rcases ht.live_free addr s hs b hb with hapart | hapart
  · simp only at hapart
    omega
  · simp only at hapart
    omega

/-- The free list's entries are where free memory begins. -/
theorem mem_free_iff (ht : t.Tiled) : (∃ b ∈ t.free, b.1 = a) ↔ OpensFreeRun t a := by
  constructor
  · rintro ⟨b, hb, rfl⟩
    obtain ⟨hpos, hbound⟩ := ht.free_bound b hb
    have hbase := (ht.free_aligned b hb).1
    have hheld : HeldBy t.free b.1 := ⟨b, hb, le_rfl, by omega⟩
    refine ⟨⟨hbase, by omega⟩, not_inLive_of_heldBy ht hheld, ?_⟩
    by_cases hfirst : b.1 = heapBase
    · exact .inl hfirst
    · right
      rcases ht.covered (b.1 - 1) (by omega) (by omega) with ⟨c, hc, hlo, hhi⟩ | hlive
      · -- a free block that ends where this one begins would have been joined to it
        exfalso
        have hne : c ≠ b := by
          rintro rfl
          omega
        obtain ⟨left, right, hsplit⟩ := List.append_of_mem hb
        have happart := ht.free_apart
        rw [hsplit, FreeOrdered, List.pairwise_append, List.pairwise_cons] at happart
        obtain ⟨-, ⟨hright, -⟩, hcross⟩ := happart
        rw [hsplit, List.mem_append, List.mem_cons] at hc
        rcases hc with hc | rfl | hc
        · have hlt := hcross c hc b List.mem_cons_self
          omega
        · exact hne rfl
        · have hlt := hright c hc
          omega
      · exact hlive
  · rintro ⟨⟨hlo, hhi⟩, hnot, habove⟩
    rcases ht.covered a hlo hhi with ⟨b, hb, hblo, hbhi⟩ | hlive
    · refine ⟨b, hb, ?_⟩
      by_contra hne
      have hbelow : HeldBy t.free (a - 1) := ⟨b, hb, by omega, by omega⟩
      rcases habove with hbase | hlive
      · have hstart := (ht.free_aligned b hb).1
        omega
      · exact not_inLive_of_heldBy ht hbelow hlive
    · exact absurd hlive hnot

end Tables

section Book

variable {h : HeapState} {t : HeapTables} {book : AddressBook}

theorem tiled_of_history (hist : History t book) : t.Tiled := by
  induction hist with
  | empty => exact HeapState.tiled_new
  | call hist call ih => exact HeapState.tiled_run ih call

/-- Live blocks were returned and are not released. -/
structure AddressBook.Agrees (book : AddressBook) (t : HeapTables) : Prop where
  live : ∀ a ∈ t.live, a ∈ book.returned
  released : ∀ a ∈ book.released, a ∉ t.live ∧ a ∈ book.returned

theorem agrees_insert {live : Finmap fun _ : Nat => Nat} (hbook : book.Agrees t) {addr s : Nat}
    (hlive : live = t.live.insert addr s) {t' : HeapTables} (ht' : t'.live = live) :
    (book.noteAlloc (some addr)).Agrees t' := by
  constructor
  · intro a ha
    rw [ht', hlive, Finmap.mem_insert] at ha
    rcases ha with rfl | ha
    · exact Finset.mem_insert_self _ _
    · exact Finset.mem_insert_of_mem (hbook.live a ha)
  · intro a ha
    obtain ⟨hne, ha⟩ := Finset.mem_erase.mp ha
    obtain ⟨hnot, hreturned⟩ := hbook.released a ha
    refine ⟨?_, Finset.mem_insert_of_mem hreturned⟩
    rw [ht', hlive, Finmap.mem_insert]
    exact not_or.mpr ⟨hne, hnot⟩

theorem agrees_alloc (hbook : book.Agrees h.toHeapTables) (size : Nat) :
    (book.noteAlloc (h.alloc size).2).Agrees (h.alloc size).1.toHeapTables := by
  have hstep := HeapState.allocStep_alloc h size
  generalize (h.alloc size).2 = result at hstep ⊢
  generalize (h.alloc size).1.toHeapTables = t' at hstep ⊢
  cases hstep with
  | refused => exact hbook
  | reused before after addr block hfree hfits => exact agrees_insert hbook rfl rfl
  | grown hroom => exact agrees_insert hbook rfl rfl

theorem live_coalesce (h : HeapState) (i : Nat) : (h.coalesce i).live = h.live := by
  unfold HeapState.coalesce
  split
  · split
    · simp only [HeapState.log_toHeapTables]
    · rfl
  · rfl

/-- A release of a live block takes it off the table. -/
theorem release_of_live {addr size : Nat} (hlive : h.live.lookup addr = some size) :
    (h.release addr).2 = .ok () ∧ (h.release addr).1.live = h.live.erase addr := by
  unfold HeapState.release
  rw [hlive]
  refine ⟨rfl, ?_⟩
  simp only
  split
  · rw [live_coalesce, live_coalesce]
    simp only [HeapState.insertFree, HeapState.dropLive, HeapState.log_toHeapTables]
  · rw [live_coalesce]
    simp only [HeapState.insertFree, HeapState.dropLive, HeapState.log_toHeapTables]

theorem release_of_not_live {addr : Nat} (hlive : h.live.lookup addr = none) :
    h.release addr = (h, .error (h.rejectReason addr)) := by
  unfold HeapState.release
  rw [hlive]

theorem agrees_release (hbook : book.Agrees h.toHeapTables) (addr : Nat) :
    (book.noteRelease addr (h.release addr).2).Agrees (h.release addr).1.toHeapTables := by
  cases hlive : h.live.lookup addr with
  | none =>
      rw [release_of_not_live hlive]
      exact hbook
  | some size =>
      obtain ⟨hok, herase⟩ := release_of_live hlive
      have hreturned := hbook.live addr (Finmap.mem_of_lookup_eq_some hlive)
      rw [hok]
      constructor
      · intro a ha
        rw [herase] at ha
        exact hbook.live a (Finmap.mem_erase.mp ha).2
      · intro a ha
        rw [herase]
        rcases Finset.mem_insert.mp ha with rfl | ha
        · exact ⟨fun hmem => (Finmap.mem_erase.mp hmem).1 rfl, hreturned⟩
        · obtain ⟨hnot, hold⟩ := hbook.released a ha
          exact ⟨fun hmem => hnot (Finmap.mem_erase.mp hmem).2, hold⟩

theorem agrees_of_history (hist : History t book) : book.Agrees t := by
  induction hist with
  | empty =>
      refine ⟨fun a ha => absurd ha Finmap.notMem_empty, fun a ha => ?_⟩
      exact absurd ha (Finset.notMem_empty a)
  | call hist call ih =>
      cases call with
      | alloc size => exact agrees_alloc ih size
      | release addr => exact agrees_release ih addr

/-- Every sequence of the program's own calls has a book. -/
theorem history_of_heapRun (hrun : HeapRun t) : ∃ book, History t book := by
  induction hrun with
  | empty => exact ⟨_, .empty⟩
  | call m stub hrun ih =>
      refine Routine.run_induction (motive := fun m => ∃ book, History m.heap.toHeapTables book)
        _ ih ?_
      intro m op hm
      cases op with
      | reg call => exact hm
      | mem call => exact hm
      | heap call =>
          obtain ⟨book, hist⟩ := hm
          exact ⟨_, hist.call call⟩

end Book

section Reports

variable {m : Machine} {book : AddressBook} {why : String}

theorem wildPointer_inj {addr : Word} {name why' : String}
    (h : wildPointer addr why name = wildPointer addr why' name) : why = why' := by
  have htext := congrArg String.toList (EmuError.runtimeError.inj h)
  simp only [String.toList_append, List.append_assoc] at htext
  have htail := List.append_cancel_left (List.append_cancel_left (List.append_cancel_left
    (List.append_cancel_left htext)))
  exact String.toList_inj.mp (List.append_cancel_right htail)

theorem free_of_not_live (hnull : m.regs.gprValue 0 true ≠ 0)
    (hlive : m.heap.live.lookup (m.regs.gprValue 0 true).toNat = none) :
    (free.run m).2 = .error (wildPointer (m.regs.gprValue 0 true)
      (m.heap.rejectReason (m.regs.gprValue 0 true).toNat) "free") := by
  have hheap : (MachineCall.run m (.reg (.readGpr 0 true))).heap = m.heap := rfl
  rw [free, Exec.run_bind, Exec.run_readGpr]
  simp only [if_neg hnull]
  rw [Exec.run_bind, releaseOrHalt, Exec.run_bind, Exec.run_look]
  simp only [hheap, release_of_not_live hlive]
  rw [Exec.run_bind, Exec.run_call]
  rfl

theorem realloc_of_not_live (hnull : m.regs.gprValue 0 true ≠ 0)
    (hlive : m.heap.live.lookup (m.regs.gprValue 0 true).toNat = none) :
    (realloc.run m).2 = .error (wildPointer (m.regs.gprValue 0 true)
      (m.heap.rejectReason (m.regs.gprValue 0 true).toNat) "realloc") := by
  rw [realloc, Exec.run_bind, Exec.run_readGpr]
  simp only
  rw [Exec.run_bind, Exec.run_readGpr]
  simp only [gprValue_run_readGpr, if_neg hnull]
  generalize hm : MachineCall.run (MachineCall.run m _) _ = m₁
  have hheap : m₁.heap = m.heap := by rw [← hm]; rfl
  split
  · rw [Exec.run_bind, releaseOrHalt, Exec.run_bind, Exec.run_look]
    simp only [hheap, release_of_not_live hlive]
    rw [Exec.run_bind, Exec.run_call]
    rfl
  · rw [Exec.run_bind, Exec.run_look]
    have hnone : m₁.heap.blockSize (m.regs.gprValue 0 true).toNat = none := by
      rw [hheap]
      exact hlive
    simp only [hnone]
    rw [Exec.run_bind, Exec.run_look, hheap]
    rfl

/-- What is said of an address that is not live is the allocator's reason. -/
theorem reports_iff (hnull : m.regs.gprValue 0 true ≠ 0)
    (hlive : m.heap.live.lookup (m.regs.gprValue 0 true).toNat = none) :
    Reports m why ↔ m.heap.rejectReason (m.regs.gprValue 0 true).toNat = why := by
  unfold Reports
  rw [free_of_not_live hnull hlive, realloc_of_not_live hnull hlive]
  constructor
  · rintro ⟨hfree, -⟩
    exact wildPointer_inj (Except.error.inj hfree)
  · rintro rfl
    exact ⟨rfl, rfl⟩

theorem rejectReason_eq {h : HeapState} (ht : h.Tiled) (a : Nat) :
    h.rejectReason a = doubleFree ↔ OpensFreeRun h.toHeapTables a := by
  have hhead : (h.free.any fun entry => entry.1 == a) = true ↔ ∃ b ∈ h.free, b.1 = a := by
    simp [List.any_eq_true]
  rw [← mem_free_iff ht, ← hhead]
  unfold HeapState.rejectReason
  cases (h.free.any fun entry => entry.1 == a) with
  | true => exact ⟨fun _ => rfl, fun _ => rfl⟩
  | false => exact ⟨fun hwhy => absurd hwhy (by decide), fun h => absurd h (by decide)⟩

theorem rejectReason_eq_not {h : HeapState} (ht : h.Tiled) (a : Nat) :
    h.rejectReason a = notFromMalloc ↔ ¬ OpensFreeRun h.toHeapTables a := by
  rw [← rejectReason_eq ht]
  unfold HeapState.rejectReason
  split
  · exact ⟨fun hwhy => absurd hwhy (by decide), fun h => absurd rfl h⟩
  · exact ⟨fun _ => by decide, fun _ => rfl⟩

/-- Whatever was called before, an address is diagnosed rightly exactly when free memory
begins there if it was released, and does not if it was never returned. -/
theorem diagnosed_iff (hist : History m.heap.toHeapTables book) :
    Diagnosed book m ↔
      ((m.regs.gprValue 0 true).toNat ∈ book.released →
          OpensFreeRun m.heap.toHeapTables (m.regs.gprValue 0 true).toNat) ∧
        ((m.regs.gprValue 0 true).toNat ∉ book.returned →
          ¬ OpensFreeRun m.heap.toHeapTables (m.regs.gprValue 0 true).toNat) := by
  have ht := tiled_of_history hist
  have hbook := agrees_of_history hist
  by_cases hnull : m.regs.gprValue 0 true = 0
  · have hzero : ¬ OpensFreeRun m.heap.toHeapTables (m.regs.gprValue 0 true).toNat := by
      rw [hnull]
      exact fun h => absurd h.inWindow.1 (by decide)
    have hsilent : ¬ Reports m doubleFree := fun h => absurd h.1 (by
      rw [free, Exec.run_bind, Exec.run_readGpr]
      simp only [if_pos hnull]
      exact nofun)
    constructor
    · exact fun h => ⟨fun hmem => absurd (h.1 hmem) hsilent, fun _ => hzero⟩
    · exact fun h => ⟨fun hmem => absurd (h.1 hmem) hzero, fun hne => absurd hnull hne⟩
  · have hreleased : (m.regs.gprValue 0 true).toNat ∈ book.released →
        (Reports m doubleFree ↔
          OpensFreeRun m.heap.toHeapTables (m.regs.gprValue 0 true).toNat) := by
      intro hmem
      have hdead := Finmap.lookup_eq_none.mpr (hbook.released _ hmem).1
      rw [reports_iff hnull hdead, rejectReason_eq ht]
    have hunknown : (m.regs.gprValue 0 true).toNat ∉ book.returned →
        (Reports m notFromMalloc ↔
          ¬ OpensFreeRun m.heap.toHeapTables (m.regs.gprValue 0 true).toNat) := by
      intro hmem
      have hdead := Finmap.lookup_eq_none.mpr fun hlive => hmem (hbook.live _ hlive)
      rw [reports_iff hnull hdead, rejectReason_eq_not ht]
    constructor
    · rintro ⟨hdouble, hforeign⟩
      exact ⟨fun hmem => (hreleased hmem).mp (hdouble hmem),
        fun hmem => (hunknown hmem).mp (hforeign hnull hmem)⟩
    · rintro ⟨hopens, hcloses⟩
      exact ⟨fun hmem => (hreleased hmem).mpr (hopens hmem),
        fun _ hmem => (hunknown hmem).mpr (hcloses hmem)⟩

end Reports

/-- A machine with this heap and this pointer in x0. -/
def asks (h : HeapState) (addr : Word) : Machine where
  regs := RegisterFile.new.writeGpr 0 true addr
  mem := Memory.new
  heap := h

/-- The heap a list of calls leads to, newest first, with the book kept of it. -/
def heapAfter : List HeapCall → HeapState × AddressBook
  | [] => (HeapState.new, .empty)
  | call :: earlier =>
      let (h, book) := heapAfter earlier
      (call.run h, book.after h call)

theorem history_heapAfter (calls : List HeapCall) :
    History (heapAfter calls).1.toHeapTables (heapAfter calls).2 := by
  induction calls with
  | nil => exact .empty
  | cons call calls ih => exact ih.call call

/-- A block that was freed is reported as freed. -/
theorem diagnosed_iff_freed :
    0x900000 ∈ (heapAfter [.release 0x900000, .alloc 16]).2.released ∧
      Reports (asks (heapAfter [.release 0x900000, .alloc 16]).1 0x900000) doubleFree := by
  have hist := history_heapAfter [.release 0x900000, .alloc 16]
  have hopens : OpensFreeRun (heapAfter [.release 0x900000, .alloc 16]).1.toHeapTables
      0x900000 :=
    (mem_free_iff (tiled_of_history hist)).mp ⟨(0x900000, 16), by decide, rfl⟩
  have hreleased : 0x900000 ∈ (heapAfter [.release 0x900000, .alloc 16]).2.released := by
    decide
  refine ⟨hreleased, ?_⟩
  have hboth := (diagnosed_iff (m := asks (heapAfter [.release 0x900000, .alloc 16]).1 0x900000)
    hist).mpr ⟨fun _ => hopens, fun hnew => absurd ((agrees_of_history hist).released _
      hreleased).2 hnew⟩
  exact hboth.1 hreleased

/-- Two neighbouring blocks, both freed. -/
def freedPair : List HeapCall :=
  [.release 0x900010, .release 0x900000, .alloc 16, .alloc 16]

/-- A block freed, of which only the front was handed out again. -/
def splitBlock : List HeapCall := [.alloc 16, .release 0x900000, .alloc 64]

/-- The second of two freed neighbours is not recognised, and what is left of a split block
is taken for a freed one. -/
theorem not_diagnosed :
    (¬ ∀ (m : Machine) (book : AddressBook), History m.heap.toHeapTables book →
      Diagnosed book m) ∧
    (0x900010 ∈ (heapAfter freedPair).2.released ∧
      Reports (asks (heapAfter freedPair).1 0x900010) notFromMalloc) ∧
    (0x900010 ∉ (heapAfter splitBlock).2.returned ∧
      Reports (asks (heapAfter splitBlock).1 0x900010) doubleFree) := by
  have hreleased : 0x900010 ∈ (heapAfter freedPair).2.released := by decide
  have hnew : 0x900010 ∉ (heapAfter splitBlock).2.returned := by decide
  have hdead : (heapAfter freedPair).1.live.lookup 0x900010 = none :=
    Finmap.lookup_eq_none.mpr
      ((agrees_of_history (history_heapAfter freedPair)).released _ hreleased).1
  have hdead' : (heapAfter splitBlock).1.live.lookup 0x900010 = none :=
    Finmap.lookup_eq_none.mpr fun hlive =>
      hnew ((agrees_of_history (history_heapAfter splitBlock)).live _ hlive)
  have hforeign : Reports (asks (heapAfter freedPair).1 0x900010) notFromMalloc :=
    (reports_iff (m := asks (heapAfter freedPair).1 0x900010) (by decide) hdead).mpr
      (by decide)
  have hdouble : Reports (asks (heapAfter splitBlock).1 0x900010) doubleFree :=
    (reports_iff (m := asks (heapAfter splitBlock).1 0x900010) (by decide) hdead').mpr
      (by decide)
  refine ⟨fun h => ?_, ⟨hreleased, hforeign⟩, hnew, hdouble⟩
  have hright := (h (asks (heapAfter freedPair).1 0x900010) _ (history_heapAfter freedPair)).1
    hreleased
  exact absurd (wildPointer_inj (Except.error.inj (hright.1.symm.trans hforeign.1))) (by decide)

end Hosted

end Playground
