/-
What it is for executor code to keep off the first page: it does the same in the machine
without the page.  Code whose accesses are known spans of bytes keeps off it exactly when
the spans do.
-/
import Playground.Machine.NullPage
import Playground.Isa.TornLoads

namespace Playground

def Machine.withoutNullPage (m : Machine) : Machine := { m with mem := m.mem.withoutNullPage }

namespace Exec

variable {α β : Type} {x : Exec α} {f : α → Exec β} {m : Machine}

/-- If the code succeeds, it neither reads nor writes the first page: without the page it
succeeds too, with the same value, and leaves the same machine without the page. -/
def SparesNullPage (x : Exec α) (m : Machine) : Prop :=
  ∀ m' a, x.run m = (m', .ok a) → x.run m.withoutNullPage = (m'.withoutNullPage, .ok a)

/-- The code does not look at memory. -/
def MemoryBlind (x : Exec α) : Prop :=
  ∀ m mem, x.run { m with mem := mem } = ({ (x.run m).1 with mem := mem }, (x.run m).2)

/-- The code succeeds, and without the first page it fails or maps the page. -/
structure ReachesNullPage (x : Exec α) (m : Machine) : Prop where
  succeeds : ∃ a, (x.run m).2 = .ok a
  mapped : ∀ a, (x.run m.withoutNullPage).2 = .ok a →
    (0 : Word) ∈ (x.run m.withoutNullPage).1.mem.pages

theorem ReachesNullPage.not_spares (h : x.ReachesNullPage m) : ¬ x.SparesNullPage m := by
  intro hspares
  obtain ⟨a, ha⟩ := h.succeeds
  have hrun := hspares (x.run m).1 a (by rw [← ha])
  have hmapped := h.mapped a (by rw [hrun])
  rw [hrun] at hmapped
  exact Memory.not_mem_withoutNullPage _ hmapped

theorem sparesNullPage_of_fails (h : ∀ a, (x.run m).2 ≠ .ok a) : x.SparesNullPage m := by
  intro m' a hrun
  exact absurd (by rw [hrun]) (h a)

section Bind

theorem MemoryBlind.bind (hx : x.MemoryBlind) (hf : ∀ a, (f a).MemoryBlind) :
    (x >>= f).MemoryBlind := by
  intro m mem
  rw [run_bind, run_bind, hx m mem]
  rcases x.run m with ⟨m', e | a⟩
  · rfl
  · exact hf a m' mem

theorem MemoryBlind.mem_run (h : x.MemoryBlind) (m : Machine) : (x.run m).1.mem = m.mem := by
  have hself : x.run m = ({ (x.run m).1 with mem := m.mem }, (x.run m).2) := h m m.mem
  rw [hself]

theorem MemoryBlind.spares (h : x.MemoryBlind) (m : Machine) : x.SparesNullPage m := by
  intro m' a hrun
  have hblind := h m m.mem.withoutNullPage
  have hmem := h.mem_run m
  rw [hrun] at hblind hmem
  refine hblind.trans ?_
  rw [← hmem]
  rfl

theorem SparesNullPage.bind (hx : x.SparesNullPage m)
    (hf : ∀ m' a, x.run m = (m', .ok a) → (f a).SparesNullPage m') :
    (x >>= f).SparesNullPage m := by
  intro m'' b hrun
  rw [run_bind] at hrun ⊢
  rcases hfirst : x.run m with ⟨m', e | a⟩
  · rw [hfirst] at hrun
    cases hrun
  · rw [hfirst] at hrun
    rw [hx m' a hfirst]
    exact hf m' a hfirst m'' b hrun

/-- What keeps off the page and succeeds goes on to what reaches it. -/
theorem SparesNullPage.bind_reaches {m' : Machine} {a : α} (hx : x.SparesNullPage m)
    (hrun : x.run m = (m', .ok a)) (hf : (f a).ReachesNullPage m') :
    (x >>= f).ReachesNullPage m := by
  have hwithout := hx m' a hrun
  refine ⟨?_, ?_⟩
  · rw [run_bind_ok hrun]
    exact hf.succeeds
  · rw [run_bind_ok hwithout]
    exact hf.mapped

end Bind

section Primitives

theorem blind_pure (a : α) : (pure a : Exec α).MemoryBlind := fun _ _ => rfl

theorem blind_fail (e : EmuError) : (fail e : Exec α).MemoryBlind := fun _ _ => rfl

theorem blind_look {g : Machine → α} (h : ∀ m mem, g { m with mem := mem } = g m) :
    (look g).MemoryBlind := by
  intro m mem
  rw [run_look, run_look, h]

theorem blind_call (op : RegCall) : (call (.reg op)).MemoryBlind := fun _ _ => rfl

theorem blind_ite {c : Prop} [Decidable c] {x y : Exec α} (hx : x.MemoryBlind)
    (hy : y.MemoryBlind) : (if c then x else y).MemoryBlind := by
  split
  · exact hx
  · exact hy

theorem blind_readGpr (index : Nat) (sf : Bool) : (readGpr index sf).MemoryBlind :=
  fun _ _ => rfl

theorem blind_readGprOrSp (index : Nat) (sf : Bool) : (readGprOrSp index sf).MemoryBlind := by
  unfold readGprOrSp
  apply blind_ite
  · exact blind_look fun _ _ => rfl
  · exact blind_readGpr index sf

theorem blind_writeGprOrSp (index : Nat) (sf : Bool) (value : Word) :
    (writeGprOrSp index sf value).MemoryBlind := by
  unfold writeGprOrSp
  apply blind_ite
  · exact blind_call _
  · exact blind_call _

end Primitives

end Exec

section Access

variable {α β : Type} {x : Exec α} {f : α → Exec β} {spans spans' : List (Word × Nat)}

def spanBytes (spans : List (Word × Nat)) : Nat := (spans.map Prod.snd).sum

/-- None of the spans reaches the first page. -/
def SpansClear (spans : List (Word × Nat)) : Prop :=
  ∀ span ∈ spans, ClearOfNullPage span.1 span.2

/-- Code whose accesses are these spans, and that fails for no other reason: it keeps off
the first page exactly when they do. -/
structure Accesses (x : Exec α) (spans : List (Word × Nat)) : Prop where
  keeps : ∀ m, (0 : Word) ∈ m.mem.pages → (0 : Word) ∈ (x.run m).1.mem.pages
  opens : ∀ m room, m.mem.Open (room + spanBytes spans) →
    ∃ m' a, x.run m = (m', .ok a) ∧ m'.mem.Open room
  spares : SpansClear spans → ∀ m, x.SparesNullPage m
  reaches : ¬ SpansClear spans → ∀ m, m.mem.Open (spanBytes spans) → x.ReachesNullPage m

namespace Accesses

theorem spanBytes_append : spanBytes (spans ++ spans') = spanBytes spans + spanBytes spans' := by
  unfold spanBytes
  rw [List.map_append, List.sum_append]

theorem spansClear_append :
    SpansClear (spans ++ spans') ↔ SpansClear spans ∧ SpansClear spans' := by
  unfold SpansClear
  rw [List.forall_mem_append]

/-- One access after another. -/
theorem bind (hx : Accesses x spans) (hf : ∀ a, Accesses (f a) spans') :
    Accesses (x >>= f) (spans ++ spans') := by
  constructor
  · intro m hmapped
    have hkept := hx.keeps m hmapped
    rw [Exec.run_bind]
    rcases hrun : x.run m with ⟨m', e | a⟩
    · rw [hrun] at hkept
      exact hkept
    · rw [hrun] at hkept
      exact (hf a).keeps m' hkept
  · intro m room hopen
    rw [spanBytes_append] at hopen
    obtain ⟨m', a, hrun, hopen'⟩ := hx.opens m (room + spanBytes spans') (hopen.mono (by omega))
    obtain ⟨m'', b, hrun', hopen''⟩ := (hf a).opens m' room hopen'
    exact ⟨m'', b, (Exec.run_bind_ok hrun).trans hrun', hopen''⟩
  · intro hclear m
    obtain ⟨hfirst, hrest⟩ := spansClear_append.mp hclear
    exact (hx.spares hfirst m).bind fun m' a _ => (hf a).spares hrest m'
  · intro hreach m hopen
    rw [spanBytes_append] at hopen
    obtain ⟨m', a, hrun, hopen'⟩ := hx.opens m (spanBytes spans') (hopen.mono (by omega))
    by_cases hfirst : SpansClear spans
    · have hrest : ¬ SpansClear spans' :=
        fun hrest => hreach (spansClear_append.mpr ⟨hfirst, hrest⟩)
      exact (hx.spares hfirst m).bind_reaches hrun ((hf a).reaches hrest m' hopen')
    · obtain ⟨-, hmapped⟩ := hx.reaches hfirst m (hopen.mono (by omega))
      constructor
      · obtain ⟨m'', b, hrun', -⟩ := (hf a).opens m' 0 (by simpa using hopen')
        exact ⟨b, by rw [Exec.run_bind_ok hrun, hrun']⟩
      · intro b hb
        rw [Exec.run_bind] at hb ⊢
        rcases hwithout : x.run m.withoutNullPage with ⟨m'', e | a'⟩
        · rw [hwithout] at hb
          cases hb
        · rw [hwithout] at hmapped
          exact (hf a').keeps m'' (hmapped a' rfl)

/-- Code that neither looks at memory nor fails makes no access. -/
theorem of_blind (hblind : x.MemoryBlind) (htotal : x.Total) : Accesses x [] := by
  constructor
  · intro m hmapped
    rw [hblind.mem_run]
    exact hmapped
  · intro m room hopen
    obtain ⟨a, ha⟩ := htotal m
    refine ⟨(x.run m).1, a, by rw [← ha], ?_⟩
    rw [hblind.mem_run]
    exact hopen
  · exact fun _ => hblind.spares
  · exact fun h => absurd (fun span hspan => absurd hspan List.not_mem_nil) h

theorem before (hblind : x.MemoryBlind) (htotal : x.Total) (hf : ∀ a, Accesses (f a) spans) :
    Accesses (x >>= f) spans := (of_blind hblind htotal).bind hf

theorem after (hx : Accesses x spans) (hblind : ∀ a, (f a).MemoryBlind)
    (htotal : ∀ a, (f a).Total) : Accesses (x >>= f) spans := by
  have hall := hx.bind fun a => of_blind (hblind a) (htotal a)
  rwa [List.append_nil] at hall

theorem map (g : α → β) (hx : Accesses x spans) : Accesses (g <$> x) spans :=
  hx.after (fun _ => Exec.blind_pure _) fun _ => Exec.total_pure _

end Accesses

theorem spansClear_singleton {addr : Word} {n : Nat} :
    SpansClear [(addr, n)] ↔ ClearOfNullPage addr n := by
  unfold SpansClear
  rw [List.forall_mem_singleton]

theorem spanBytes_singleton (addr : Word) (n : Nat) : spanBytes [(addr, n)] = n := by
  simp [spanBytes]

theorem spanBytes_map_const (g : α → Word) (n : Nat) (l : List α) :
    spanBytes (l.map fun a => (g a, n)) = l.length * n := by
  unfold spanBytes
  rw [List.map_map]
  simp [Function.comp_def]

/-- Code that reads `n` bytes is an access of them. -/
theorem accesses_attempt {g : Memory → Except EmuError α} {addr : Word} {n : Nat}
    (hok : ∀ mem : Memory, (g mem).isOk = (mem.readLe addr n).isOk)
    (hsame : ClearOfNullPage addr n → ∀ mem : Memory, g mem.withoutNullPage = g mem)
    (hpos : 0 < n) (hn : n ≤ 16) : Accesses (Exec.attempt fun m => g m.mem) [(addr, n)] := by
  have hopens : ∀ mem room, Memory.Open mem room → ∃ a, g mem = .ok a := by
    intro mem room hopen
    obtain ⟨value, hvalue⟩ := hopen.readLe addr n
    have hisOk := hok mem
    rw [hvalue] at hisOk
    rcases hread : g mem with e | a
    · rw [hread] at hisOk
      cases hisOk
    · exact ⟨a, rfl⟩
  constructor
  · exact fun m hmapped => hmapped
  · intro m room hopen
    obtain ⟨a, ha⟩ := hopens m.mem _ hopen
    exact ⟨m, a, by rw [Exec.run_attempt, ha], hopen.mono (by omega)⟩
  · intro hclear m m' a hrun
    rw [Exec.run_attempt] at hrun ⊢
    have hm : m = m' := congrArg Prod.fst hrun
    have hread : g m.mem = .ok a := congrArg Prod.snd hrun
    subst hm
    exact Prod.ext rfl ((hsame (spansClear_singleton.mp hclear) m.mem).trans hread)
  · intro hreach m hopen
    obtain ⟨a, ha⟩ := hopens m.mem _ hopen
    constructor
    · exact ⟨a, by rw [Exec.run_attempt, ha]⟩
    · intro b hb
      have hread : g m.mem.withoutNullPage = .ok b := hb
      have hnull := Memory.readLe_null (m := m.mem) hpos hn
        fun hclear => hreach (spansClear_singleton.mpr hclear)
      rw [← hok, hread] at hnull
      cases hnull

/-- Code that writes bytes is an access of them. -/
theorem accesses_store {op : MemCall} {write : Memory → Memory × Except EmuError Unit}
    {bytes : List Byte} {addr : Word} (hrun : ∀ mem, op.run mem = (write mem).1)
    (hwrite : ∀ mem, write mem = mem.writeLe addr bytes) {n : Nat} (hn : bytes.length = n)
    (hpos : 0 < n) (hle : n ≤ 16) :
    Accesses (Exec.store op fun mem => (write mem).2) [(addr, n)] := by
  subst hn
  have hcode : ∀ m, (Exec.store op fun mem => (write mem).2).run m =
      ({ m with mem := (m.mem.writeLe addr bytes).1 }, (m.mem.writeLe addr bytes).2) := by
    intro m
    rw [Exec.run_store, ← hwrite, ← hrun]
    rfl
  constructor
  · intro m hmapped
    rw [hcode]
    exact Memory.mem_writeLe_of_mem hmapped addr bytes
  · intro m room hopen
    rw [spanBytes_singleton] at hopen
    obtain ⟨hok, hopen'⟩ := hopen.writeLe hpos addr
    exact ⟨_, (), by rw [hcode, hok], hopen'⟩
  · intro hclear m m' a hrun'
    rw [hcode] at hrun' ⊢
    have hm : { m with mem := (m.mem.writeLe addr bytes).1 } = m' := congrArg Prod.fst hrun'
    have hok : (m.mem.writeLe addr bytes).2 = .ok a := congrArg Prod.snd hrun'
    subst hm
    have hsame := Memory.writeLe_withoutNullPage hpos (spansClear_singleton.mp hclear) hok
    show (_, (m.mem.withoutNullPage.writeLe addr bytes).2) = _
    simp only [Machine.withoutNullPage, hsame]
  · intro hreach m hopen
    rw [spanBytes_singleton] at hopen
    have hmore : m.mem.Open (0 + bytes.length) := by simpa using hopen
    obtain ⟨hok, -⟩ := hmore.writeLe hpos addr
    constructor
    · exact ⟨(), by rw [hcode, hok]⟩
    · intro b hb
      rw [hcode] at hb ⊢
      exact Memory.writeLe_null hpos hle
        (fun hclear => hreach (spansClear_singleton.mpr hclear)) hb

end Access

namespace Execute

section Widths

variable (addr : Word)

theorem accesses_readU8 : Accesses (Exec.readU8 addr) [(addr, 1)] := by
  apply accesses_attempt (g := fun mem => mem.readU8 addr) (fun mem => isOk_readU8 mem addr)
  · intro hclear mem
    exact Memory.readU8_withoutNullPage hclear.head
  · decide
  · decide

/-- A read of more than a byte goes through the shared body. -/
theorem accesses_readLe {α : Type} (n : Nat) (g : Nat → α) (hpos : 0 < n) (hn : n ≤ 16) :
    Accesses (Exec.attempt fun m => (m.mem.readLe addr n).map g) [(addr, n)] := by
  apply accesses_attempt (g := fun mem => (mem.readLe addr n).map g) (fun mem => isOk_map _ _)
  · intro hclear mem
    simp only [Memory.readLe_withoutNullPage hpos hclear]
  · exact hpos
  · exact hn

theorem accesses_readU16 : Accesses (Exec.readU16 addr) [(addr, 2)] :=
  accesses_readLe addr 2 _ (by decide) (by decide)

theorem accesses_readU32 : Accesses (Exec.readU32 addr) [(addr, 4)] :=
  accesses_readLe addr 4 _ (by decide) (by decide)

theorem accesses_readU64 : Accesses (Exec.readU64 addr) [(addr, 8)] :=
  accesses_readLe addr 8 _ (by decide) (by decide)

theorem accesses_readU128 : Accesses (Exec.readU128 addr) [(addr, 16)] :=
  accesses_readLe addr 16 _ (by decide) (by decide)

theorem accesses_writeU8 (val : Byte) : Accesses (Exec.writeU8 addr val) [(addr, 1)] :=
  accesses_store (fun _ => rfl) (fun mem => (mem.writeLe_singleton addr val).symm) rfl
    (by decide) (by decide)

theorem accesses_writeU16 (val : BitVec 16) : Accesses (Exec.writeU16 addr val) [(addr, 2)] :=
  accesses_store (fun _ => rfl) (fun _ => rfl) (length_leBytes 2 _) (by decide) (by decide)

theorem accesses_writeU32 (val : BitVec 32) : Accesses (Exec.writeU32 addr val) [(addr, 4)] :=
  accesses_store (fun _ => rfl) (fun _ => rfl) (length_leBytes 4 _) (by decide) (by decide)

theorem accesses_writeU64 (val : Word) : Accesses (Exec.writeU64 addr val) [(addr, 8)] :=
  accesses_store (fun _ => rfl) (fun _ => rfl) (length_leBytes 8 _) (by decide) (by decide)

theorem accesses_writeU128 (val : BitVec 128) : Accesses (Exec.writeU128 addr val) [(addr, 16)] :=
  accesses_store (fun _ => rfl) (fun _ => rfl) (length_leBytes 16 _) (by decide) (by decide)

theorem accesses_readSized {size : MemSize} (h : size ≠ .q) :
    Accesses (readSized size addr) [(addr, size.bytes)] := by
  cases size with
  | b => exact (accesses_readU8 addr).map _
  | h => exact (accesses_readU16 addr).map _
  | w => exact (accesses_readU32 addr).map _
  | x => exact accesses_readU64 addr
  | q => exact absurd rfl h

theorem accesses_writeSized {size : MemSize} (h : size ≠ .q) (value : Word) :
    Accesses (writeSized size addr value) [(addr, size.bytes)] := by
  cases size with
  | b => exact accesses_writeU8 addr _
  | h => exact accesses_writeU16 addr _
  | w => exact accesses_writeU32 addr _
  | x => exact accesses_writeU64 addr _
  | q => exact absurd rfl h

theorem accesses_loadFpr (ft : Nat) (size : MemSize) :
    Accesses (loadFpr ft size addr) [(addr, size.bytes)] := by
  cases size with
  | q =>
      exact (accesses_readU128 addr).after (fun _ => Exec.blind_call _) fun _ => Exec.total_call _
  | _ =>
      exact (accesses_readSized addr (by decide)).after (fun _ => Exec.blind_call _)
        fun _ => Exec.total_call _

theorem accesses_storeFpr (ft : Nat) (size : MemSize) :
    Accesses (storeFpr ft size addr) [(addr, size.bytes)] := by
  cases size with
  | q =>
      exact .before (Exec.blind_look fun _ _ => rfl) (Exec.total_look _)
        fun value => accesses_writeU128 addr value
  | _ =>
      exact .before (fun _ _ => rfl) (fun m => ⟨_, rfl⟩)
        fun value => accesses_writeSized addr (by decide) value

theorem accesses_readElement {esize : Nat} (h : esize ∈ [1, 2, 4, 8]) :
    Accesses (readElement addr esize) [(addr, esize)] := by
  simp only [List.mem_cons, List.not_mem_nil, or_false] at h
  rcases h with rfl | rfl | rfl | rfl
  · exact (accesses_readU8 addr).map _
  · exact (accesses_readU16 addr).map _
  · exact (accesses_readU32 addr).map _
  · exact accesses_readU64 addr

theorem accesses_writeElement {esize : Nat} (h : esize ∈ [1, 2, 4, 8]) (value : Word) :
    Accesses (writeElement addr esize value) [(addr, esize)] := by
  simp only [List.mem_cons, List.not_mem_nil, or_false] at h
  rcases h with rfl | rfl | rfl | rfl
  · exact accesses_writeU8 addr _
  · exact accesses_writeU16 addr _
  · exact accesses_writeU32 addr _
  · exact accesses_writeU64 addr _

end Widths

end Execute

end Playground
