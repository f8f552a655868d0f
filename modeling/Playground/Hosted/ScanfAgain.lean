/-
A `scanf` call made again from the start: over the stores it has already made it does the same,
and what the program cannot see makes no difference to it.
-/
import Playground.Hosted.SamePages
import Playground.Hosted.ScanfMore

namespace Playground

namespace Hosted

open Exec Memory

/-- What the program can see of two machines is the same. -/
structure SameSight (m m' : Machine) : Prop where
  values : m'.regs.values = m.regs.values
  mem : m.mem.SamePages m'.mem
  heap : m'.heap = m.heap

namespace SameSight

variable {m m' m'' : Machine}

theorem refl (m : Machine) : SameSight m m := ⟨rfl, .refl _, rfl⟩

theorem symm (h : SameSight m m') : SameSight m' m := ⟨h.values.symm, h.mem.symm, h.heap.symm⟩

theorem of_view (h : SameView m m') : SameSight m m' :=
  ⟨h.values, ⟨congrArg Memory.pages h.mem, congrArg Memory.zeroFill h.mem⟩, h.heap⟩

theorem int (h : SameSight m m') (c : ArgCursor) : c.int m' = c.int m := by
  have hsp : m'.regs.sp = m.regs.sp := congrArg RegisterValues.sp h.values
  unfold ArgCursor.int ArgCursor.spill
  rw [RegisterFile.gprValue_congr h.values, hsp, h.mem.readU64]

end SameSight

section Stores

variable {m m' : Machine} {spec : ScanSpec} {stored : Option Stored} {stop : Nat} {s : ScanState}

def byteSpans (addr : Word) : List Byte → List (Word × List Byte)
  | [] => []
  | b :: rest => (addr, [b]) :: byteSpans (addr + 1) rest

def Stored.spans (ptr : Word) : Stored → List (Word × List Byte)
  | .bytes text => byteSpans ptr text
  | .word value => [(ptr, leBytes 4 value.toNat)]
  | .long value => [(ptr, leBytes 8 value.toNat)]

theorem spans_size {ptr : Word} {stored : Stored} {w : Word × List Byte}
    (h : w ∈ stored.spans ptr) : 0 < w.2.length ∧ w.2.length ≤ 16 := by
  cases stored with
  | bytes text =>
      have hbyte : ∀ {text : List Byte} {addr : Word}, w ∈ byteSpans addr text →
          w.2.length = 1 := by
        intro text
        induction text with
        | nil => exact fun h => absurd h List.not_mem_nil
        | cons b rest ih =>
            intro addr h
            rcases List.mem_cons.mp h with rfl | h
            · rfl
            · exact ih h
      rw [hbyte h]
      omega
  | word value =>
      cases List.mem_singleton.mp h
      rw [length_leBytes]
      omega
  | long value =>
      cases List.mem_singleton.mp h
      rw [length_leBytes]
      omega

theorem run_storeEach (addr : Word) (text : List Byte) (m : Machine) :
    (storeEach addr text).run m = (⟨m.regs, (m.mem.writeEach (byteSpans addr text)).1, m.heap⟩,
      (m.mem.writeEach (byteSpans addr text)).2) := by
  induction text generalizing addr m with
  | nil => rfl
  | cons b rest ih =>
      rw [storeEach, run_bind, byteSpans, Memory.writeEach, writeLe_singleton]
      have hrun : (Exec.writeU8 addr b).run m =
          (⟨m.regs, (m.mem.writeU8 addr b).1, m.heap⟩, (m.mem.writeU8 addr b).2) := rfl
      rw [hrun]
      rcases m.mem.writeU8 addr b with ⟨mem, e | done⟩
      · rfl
      · exact ih (addr + 1) ⟨m.regs, mem, m.heap⟩

theorem run_storeField (ptr : Word) (stored : Stored) (m : Machine) :
    (Hosted.store ptr stored).run m =
      (⟨m.regs, (m.mem.writeEach (stored.spans ptr)).1, m.heap⟩,
        (m.mem.writeEach (stored.spans ptr)).2) := by
  have hone : ∀ bytes : List Byte,
      (m.mem.writeLe ptr bytes) = m.mem.writeEach [(ptr, bytes)] := by
    intro bytes
    unfold Memory.writeEach
    rcases m.mem.writeLe ptr bytes with ⟨mem, e | done⟩
    · rfl
    · rfl
  cases stored with
  | bytes text => exact run_storeEach ptr text m
  | word value =>
      rw [Stored.spans, ← hone]
      rfl
  | long value =>
      rw [Stored.spans, ← hone]
      rfl

/-- The walker once it has given out `value`. -/
def VarargWalker.took (w : VarargWalker) (value : Word) : VarargWalker :=
  if w.gpIdx ≤ 7 then { w with gpIdx := w.gpIdx + 1, last := (w.gpIdx, value) }
  else { w with stackOff := w.stackOff + 8, last := (64 + w.stackOff / 8, value) }

theorem nextInt_took (w : VarargWalker) (m : Machine) :
    ∃ m', w.nextInt.run m = (m', .ok ((w.int m).1, w.took (w.int m).1)) ∧ SameView m m' := by
  unfold VarargWalker.nextInt VarargWalker.took ArgCursor.int
  split
  · exact ⟨_, exec_bind_readGpr _ _ _ m, .readGpr m w.gpIdx true⟩
  · exact ⟨m, rfl, .refl m⟩

theorem took_stackOff (w : VarargWalker) (value : Word) (m : Machine) :
    (w.took value).stackOff = (w.int m).2.stackOff := by
  unfold VarargWalker.took ArgCursor.int
  split <;> rfl

/-- What a field stores, when it stores anything. -/
def kept (spec : ScanSpec) (stored : Option Stored) : Option Stored :=
  if spec.suppress then none else stored

theorem takeField_nothing (h : kept spec stored = none) :
    takeField spec stored stop s = pure { s with inPos := stop } := by
  unfold kept at h
  unfold takeField
  cases stored with
  | none => rfl
  | some stored =>
      split_ifs at h with hsuppress
      exact if_pos hsuppress

/-- A field that is stored goes where the next argument says. -/
theorem run_takeField_kept {field : Stored} (h : kept spec stored = some field) (m : Machine) :
    ∃ m₁, SameView m m₁ ∧ (takeField spec stored stop s).run m =
      (⟨m₁.regs, (m.mem.writeEach (field.spans (s.walker.int m).1)).1, m.heap⟩,
        (m.mem.writeEach (field.spans (s.walker.int m).1)).2.map fun _ =>
          ⟨stop, s.matched + 1, s.walker.took (s.walker.int m).1⟩) := by
  unfold kept at h
  split_ifs at h with hsuppress
  subst h
  obtain ⟨m₁, hnext, hview⟩ := nextInt_took s.walker m
  refine ⟨m₁, hview, ?_⟩
  unfold takeField
  dsimp only
  rw [if_neg hsuppress, run_bind_ok hnext]
  dsimp only
  rw [run_bind, run_storeField, hview.mem, hview.heap]
  rcases m.mem.writeEach (field.spans (s.walker.int m).1) with ⟨mem, e | done⟩
  · rfl
  · rfl

/-- What the program cannot see makes no difference to a field. -/
theorem SameSight.takeField (h : SameSight m m') :
    SameSight ((takeField spec stored stop s).run m).1 ((takeField spec stored stop s).run m').1 ∧
      ((Hosted.takeField spec stored stop s).run m').2 =
        ((Hosted.takeField spec stored stop s).run m).2 := by
  cases hkept : kept spec stored with
  | none =>
      rw [takeField_nothing hkept]
      exact ⟨h, rfl⟩
  | some field =>
      obtain ⟨m₁, hview, hrun⟩ := @run_takeField_kept spec stored stop s field hkept m
      obtain ⟨m₁', hview', hrun'⟩ := @run_takeField_kept spec stored stop s field hkept m'
      rw [h.int] at hrun'
      obtain ⟨hmem, hresult⟩ := h.mem.writeEach (field.spans (s.walker.int m).1)
      rw [hrun, hrun', hresult]
      exact ⟨⟨hview'.values.trans (h.values.trans hview.values.symm), hmem, h.heap⟩, rfl⟩

end Stores

/-- The stack is the same as far as the arguments of a call go. -/
def SameSlots (bound : Nat) (m m' : Machine) : Prop :=
  ∀ i < bound, m'.mem.readU8 (m.regs.sp + BitVec.ofNat 64 i) =
    m.mem.readU8 (m.regs.sp + BitVec.ofNat 64 i)

/-- `m` is on its way to `last`, and `m'` makes the same stores over `last`. -/
structure Catching (last m m' : Machine) : Prop where
  values : m'.regs.values = m.regs.values
  heap : m'.heap = m.heap
  pages : CatchesUp last.mem.pages m.mem.pages m'.mem.pages
  zeroFill : m.mem.zeroFill = last.mem.zeroFill
  zeroFill' : m'.mem.zeroFill = last.mem.zeroFill

namespace Catching

variable {last m m' m₁ : Machine} {spec : ScanSpec} {stored : Option Stored} {stop : Nat}
  {s s₁ : ScanState}

theorem sight (h : Catching last last m') : SameSight last m' :=
  ⟨h.values, ⟨h.pages.eq, h.zeroFill'⟩, h.heap⟩

/-- The next argument is the one it was. -/
theorem int (h : Catching last m m') (c : ArgCursor)
    (hslots : SameSlots (c.int m).2.stackOff m last) : c.int m' = c.int m := by
  have hsp : m'.regs.sp = m.regs.sp := congrArg RegisterValues.sp h.values
  unfold ArgCursor.int at hslots ⊢
  rw [RegisterFile.gprValue_congr h.values]
  split
  · rfl
  rename_i hspill
  rw [if_neg hspill] at hslots
  have hbytes := @readLe_ok_of_readU8_eq m.mem m'.mem
    (m.regs.sp + BitVec.ofNat 64 c.stackOff) 8 (by decide) (by decide) fun i hi => by
      have hslot : c.stackOff + i < c.stackOff + 8 := by omega
      rw [BitVec.add_assoc, ← BitVec.ofNat_add]
      exact h.pages.readU8 h.zeroFill h.zeroFill' (hslots _ hslot).symm
  unfold ArgCursor.spill Memory.readU64
  rw [hsp]
  refine Prod.ext ?_ rfl
  dsimp only
  cases hread : m.mem.readLe (m.regs.sp + BitVec.ofNat 64 c.stackOff) 8 with
  | ok v => rw [(hbytes v).mpr hread]
  | error e =>
      cases hread' : m'.mem.readLe (m.regs.sp + BitVec.ofNat 64 c.stackOff) 8 with
      | ok v => cases hread.symm.trans ((hbytes v).mp hread')
      | error e' => rfl

/-- A field that has been stored once is stored again. -/
theorem takeField (h : Catching last m m')
    (hrun : (takeField spec stored stop s).run m = (m₁, .ok s₁))
    (hbelow : ∀ base ∈ m₁.mem.pages, base ∈ last.mem.pages)
    (hslots : SameSlots s₁.walker.stackOff m last) :
    ∃ m₁', (Hosted.takeField spec stored stop s).run m' = (m₁', .ok s₁) ∧
      Catching last m₁ m₁' := by
  cases hkept : kept spec stored with
  | none =>
      rw [takeField_nothing hkept] at hrun ⊢
      cases hrun
      exact ⟨m', rfl, h⟩
  | some field =>
      obtain ⟨m₂, hview, hfirst⟩ := @run_takeField_kept spec stored stop s field hkept m
      obtain ⟨m₂', hview', hagain⟩ := @run_takeField_kept spec stored stop s field hkept m'
      rw [hfirst] at hrun
      have hsizes := fun w => @spans_size (s.walker.int m).1 field w
      rcases hwrite : m.mem.writeEach (field.spans (s.walker.int m).1) with ⟨mem, e | ⟨⟩⟩
      · rw [hwrite] at hrun
        cases hrun
      rw [hwrite] at hrun
      cases hrun
      rw [took_stackOff _ _ m] at hslots
      obtain ⟨mem', hwrite', hpages, hzero⟩ := h.pages.writeEach hsizes hwrite hbelow
      rw [h.int _ hslots, hwrite'] at hagain
      exact ⟨_, hagain, hview'.values.trans (h.values.trans hview.values.symm), h.heap, hpages,
        (keeps_writeEach hsizes hwrite).2.trans h.zeroFill, hzero.trans h.zeroFill'⟩

end Catching

/-- What a field that is converted leaves of the machine. -/
structure Grows (m m' : Machine) : Prop where
  values : m'.regs.values = m.regs.values
  heap : m'.heap = m.heap
  mapped : ∀ base ∈ m.mem.pages, base ∈ m'.mem.pages
  zeroFill : m'.mem.zeroFill = m.mem.zeroFill

theorem Grows.refl (m : Machine) : Grows m m := ⟨rfl, rfl, fun _ => id, rfl⟩

theorem Grows.trans {m m' m'' : Machine} (h : Grows m m') (h' : Grows m' m'') : Grows m m'' :=
  ⟨h'.values.trans h.values, h'.heap.trans h.heap,
    fun base hbase => h'.mapped base (h.mapped base hbase), h'.zeroFill.trans h.zeroFill⟩

theorem grows_takeField {spec : ScanSpec} {stored : Option Stored} {stop : Nat} {s s₁ : ScanState}
    {m m₁ : Machine} (h : (takeField spec stored stop s).run m = (m₁, .ok s₁)) :
    Grows m m₁ ∧ s.walker.stackOff ≤ s₁.walker.stackOff := by
  cases hkept : kept spec stored with
  | none =>
      rw [takeField_nothing hkept] at h
      cases h
      exact ⟨.refl m, le_rfl⟩
  | some field =>
      obtain ⟨m₂, hview, hrun⟩ := @run_takeField_kept spec stored stop s field hkept m
      rw [hrun] at h
      rcases hwrite : m.mem.writeEach (field.spans (s.walker.int m).1) with ⟨mem, e | ⟨⟩⟩
      · rw [hwrite] at h
        cases h
      rw [hwrite] at h
      cases h
      obtain ⟨hmapped, hzero⟩ := keeps_writeEach (fun w => spans_size) hwrite
      refine ⟨⟨hview.values, rfl, hmapped, hzero⟩, ?_⟩
      dsimp only
      unfold VarargWalker.took
      split
      · exact le_rfl
      · exact Nat.le_add_right _ _

namespace Reads

variable {input : List Byte} {closed : Bool} {fmt fmt' : List Char} {s s' : ScanState}
  {m m' last : Machine} {fields : List ScanSpec}

theorem grows (h : Reads input closed fmt s m fields fmt' s' m') :
    Grows m m' ∧ s.walker.stackOff ≤ s'.walker.stackOff := by
  induction h with
  | done fmt s m => exact ⟨.refl m, le_rfl⟩
  | space _ _ ih => exact ih
  | literal _ _ _ _ _ ih => exact ih
  | field _ _ _ htake _ ih =>
      obtain ⟨hgrows, hle⟩ := grows_takeField htake
      exact ⟨hgrows.trans ih.1, hle.trans ih.2⟩

/-- What the program cannot see makes no difference to the steps of a call. -/
theorem sight (h : Reads input closed fmt s m fields fmt' s' m') {n : Machine}
    (hn : SameSight m n) :
    ∃ n', Reads input closed fmt s n fields fmt' s' n' ∧ SameSight m' n' := by
  induction h generalizing n with
  | done fmt s m => exact ⟨n, .done fmt s n, hn⟩
  | space hc _ ih =>
      obtain ⟨n', hreads, hsame⟩ := ih hn
      exact ⟨n', .space hc hreads, hsame⟩
  | literal hc hpercent hb heq _ ih =>
      obtain ⟨n', hreads, hsame⟩ := ih hn
      exact ⟨n', .literal hc hpercent hb heq hreads, hsame⟩
  | @field _ _ _ s _ _ _ _ _ _ spec _ _ stored inPos hspec hconv hfield htake _ ih =>
      have hagain := @SameSight.takeField _ _ spec stored inPos s.fresh hn
      rw [htake] at hagain
      obtain ⟨n', hreads, hsame⟩ := ih hagain.1
      exact ⟨n', .field hspec hconv hfield (Prod.ext rfl hagain.2) hreads, hsame⟩

/-- The steps that led to `last`, taken once more over what they left. -/
theorem again (h : Reads input closed fmt s m fields fmt' s' last) {n : Machine}
    (hn : Catching last m n)
    (hslots : ∀ fields₁ fmt₁ s₁ m₁, Reads input closed fmt s m fields₁ fmt₁ s₁ m₁ →
      SameSlots s'.walker.stackOff m₁ last) :
    ∃ n', Reads input closed fmt s n fields fmt' s' n' ∧ SameSight last n' := by
  induction h generalizing n with
  | done fmt s m => exact ⟨n, .done fmt s n, hn.sight⟩
  | space hc _ ih =>
      obtain ⟨n', hreads, hsame⟩ := ih hn fun _ _ _ _ h => hslots _ _ _ _ (.space hc h)
      exact ⟨n', .space hc hreads, hsame⟩
  | literal hc hpercent hb heq _ ih =>
      obtain ⟨n', hreads, hsame⟩ :=
        ih hn fun _ _ _ _ h => hslots _ _ _ _ (.literal hc hpercent hb heq h)
      exact ⟨n', .literal hc hpercent hb heq hreads, hsame⟩
  | @field rest _ _ s s₁ _ m m₁ _ _ spec _ _ stored inPos hspec hconv hfield htake hrest ih =>
      have hstack := hrest.grows.2
      have hhere := hslots _ _ _ _ (.done ('%' :: rest) s m)
      obtain ⟨n₁, htake', hn₁⟩ := hn.takeField htake hrest.grows.1.mapped
        fun i hi => hhere i (Nat.lt_of_lt_of_le hi hstack)
      obtain ⟨n', hreads, hsame⟩ :=
        ih hn₁ fun _ _ _ _ h => hslots _ _ _ _ (.field hspec hconv hfield htake h)
      exact ⟨n', .field hspec hconv hfield htake' hreads, hsame⟩

end Reads

end Hosted

end Playground
