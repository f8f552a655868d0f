/-
The allocator's representation invariant: live and free blocks tile the window up to the
frontier, sixteen-byte aligned, and no two free blocks touch.  What a call does to the
tables is said once, as a step relation, and the invariant is read off it.
-/
import Playground.Machine.HeapUndo

namespace Playground

/-- A byte one of the blocks holds. -/
def HeldBy (blocks : List (Nat × Nat)) (a : Nat) : Prop :=
  ∃ b ∈ blocks, b.1 ≤ a ∧ a < b.1 + b.2

/-- Free blocks in address order with live bytes between them. -/
def FreeOrdered (blocks : List (Nat × Nat)) : Prop :=
  blocks.Pairwise fun x y => x.1 + x.2 < y.1

def AlignedBlock (b : Nat × Nat) : Prop :=
  heapBase ≤ b.1 ∧ heapAlign ∣ b.1 ∧ heapAlign ∣ b.2

/-- Live and free blocks tile the bytes from the base to the frontier.  That no two share
a byte and none passes the frontier is `WellFormed`. -/
structure HeapTables.Tiled (t : HeapTables) : Prop extends HeapTables.WellFormed t where
  free_apart : FreeOrdered t.free
  free_aligned : ∀ b ∈ t.free, AlignedBlock b
  live_aligned : ∀ a s, t.live.lookup a = some s → AlignedBlock (a, s)
  next_aligned : heapBase ≤ t.next ∧ heapAlign ∣ t.next
  covered : ∀ a, heapBase ≤ a → a < t.next →
    HeldBy t.free a ∨ ∃ addr s, t.live.lookup addr = some s ∧ addr ≤ a ∧ a < addr + s

section Join

variable {b : Nat × Nat} {rest : List (Nat × Nat)}

/-- A block in front of a list, merged with the first of it when they touch. -/
def joinNext (b : Nat × Nat) : List (Nat × Nat) → List (Nat × Nat)
  | [] => [b]
  | c :: rest => if b.1 + b.2 = c.1 then (b.1, b.2 + c.2) :: rest else b :: c :: rest

theorem forall_joinNext {P : Nat × Nat → Prop} (hb : P b) (hrest : ∀ c ∈ rest, P c)
    (hmerge : ∀ c, P c → b.1 + b.2 = c.1 → P (b.1, b.2 + c.2)) :
    ∀ x ∈ joinNext b rest, P x := by
  cases rest with
  | nil => simpa [joinNext] using hb
  | cons c rest =>
      intro x hx
      rw [joinNext] at hx
      split at hx
      · next htouch =>
          rcases List.mem_cons.mp hx with rfl | hx
          · exact hmerge c (hrest c List.mem_cons_self) htouch
          · exact hrest x (List.mem_cons_of_mem c hx)
      · rcases List.mem_cons.mp hx with rfl | hx
        · exact hb
        · exact hrest x hx

theorem freeOrdered_joinNext (hrest : FreeOrdered rest) (hb : ∀ c ∈ rest, b.1 + b.2 ≤ c.1) :
    FreeOrdered (joinNext b rest) := by
  cases rest with
  | nil => simp [joinNext, FreeOrdered]
  | cons c rest =>
      have hfirst := hb c List.mem_cons_self
      obtain ⟨hc, hrest⟩ := List.pairwise_cons.mp hrest
      rw [joinNext]
      split
      · next htouch =>
          refine List.pairwise_cons.mpr ⟨?_, hrest⟩
          intro d hd
          have hlt := hc d hd
          simp only
          omega
      · next hapart =>
          refine List.pairwise_cons.mpr ⟨?_, List.pairwise_cons.mpr ⟨hc, hrest⟩⟩
          intro d hd
          rcases List.mem_cons.mp hd with rfl | hd
          · omega
          · have hlt := hc d hd
            omega

theorem heldBy_joinNext {a : Nat} (h : b.1 ≤ a ∧ a < b.1 + b.2 ∨ HeldBy rest a) :
    HeldBy (joinNext b rest) a := by
  cases rest with
  | nil =>
      rcases h with h | ⟨c, hc, -⟩
      · exact ⟨b, by simp [joinNext], h⟩
      · simp at hc
  | cons c rest =>
      rw [joinNext]
      split
      · next htouch =>
          rcases h with h | ⟨d, hd, hlo, hhi⟩
          · refine ⟨_, List.mem_cons_self, h.1, ?_⟩
            simp only
            omega
          · rcases List.mem_cons.mp hd with rfl | hd
            · refine ⟨_, List.mem_cons_self, ?_, ?_⟩ <;> simp only <;> omega
            · exact ⟨d, List.mem_cons_of_mem _ hd, hlo, hhi⟩
      · rcases h with h | ⟨d, hd, hheld⟩
        · exact ⟨b, List.mem_cons_self, h⟩
        · exact ⟨d, List.mem_cons_of_mem b hd, hheld⟩

end Join

/-- A size rounded up to the alignment, one byte at least. -/
def roundUp (size : Nat) : Nat := (max size 1 + (heapAlign - 1)) / heapAlign * heapAlign

theorem roundUp_spec (size : Nat) :
    size ≤ roundUp size ∧ 0 < roundUp size ∧ heapAlign ∣ roundUp size := by
  refine ⟨?_, ?_, Nat.dvd_mul_left _ _⟩ <;> unfold roundUp heapAlign <;> omega

/-- What is left of a free block once its front is taken. -/
def leftover (addr block size : Nat) : List (Nat × Nat) :=
  if block = size then [] else [(addr + size, block - size)]

/-- What an allocation does to the tables, and what it answers. -/
inductive AllocStep (t : HeapTables) (size : Nat) : HeapTables → Option Nat → Prop
  | refused : AllocStep t size t none
  | reused (before after : List (Nat × Nat)) (addr block : Nat)
      (hfree : t.free = before ++ (addr, block) :: after) (hfits : roundUp size ≤ block) :
      AllocStep t size { t with
        free := before ++ (leftover addr block (roundUp size) ++ after)
        live := t.live.insert addr (roundUp size) } (some addr)
  | grown (hroom : t.next + roundUp size ≤ heapLimit) :
      AllocStep t size { t with
        next := t.next + roundUp size, live := t.live.insert t.next (roundUp size) }
        (some t.next)

/-- What a release does to the tables. -/
inductive ReleaseStep (t : HeapTables) (addr : Nat) : HeapTables → Prop
  | unknown : ReleaseStep t addr t
  | joined (size : Nat) (before after joined : List (Nat × Nat))
      (hlive : t.live.lookup addr = some size) (hfree : t.free = before ++ after)
      (hordered : (before ++ (addr, size) :: after).Pairwise fun x y => x.1 + x.2 ≤ y.1)
      (hjoined : (before = [] ∧ joined = joinNext (addr, size) after) ∨
        ∃ init p, before = init ++ [p] ∧
          joined = init ++ joinNext p (joinNext (addr, size) after)) :
      ReleaseStep t addr { t with live := t.live.erase addr, free := joined }

namespace HeapState

theorem takeFree_tables {h : HeapState} {before after : List (Nat × Nat)} {addr block : Nat}
    (hfree : h.free = before ++ (addr, block) :: after) (size : Nat) :
    ((h.takeFree before.length addr block size).insertLive addr size).toHeapTables =
      { h.toHeapTables with
        free := before ++ (leftover addr block size ++ after)
        live := h.live.insert addr size } := by
  unfold takeFree leftover
  split
  · have herase : h.free.eraseIdx before.length = before ++ after := by
      rw [hfree, List.eraseIdx_append_of_length_le le_rfl]
      simp
    simp [insertLive, herase]
  · have hset : h.free.set before.length (addr + size, block - size) =
        before ++ (addr + size, block - size) :: after := by
      rw [hfree, List.set_append_right _ _ le_rfl]
      simp
    simp [insertLive, hset]

/-- Every allocation is one of the three. -/
theorem allocStep_alloc (h : HeapState) (size : Nat) :
    AllocStep h.toHeapTables size (h.alloc size).1.toHeapTables (h.alloc size).2 := by
  have hround : (max size 1 + (heapAlign - 1)) / heapAlign * heapAlign = roundUp size := rfl
  unfold alloc
  rw [hround]
  split
  · exact .refused
  · simp only
    split
    · next i hfind =>
        obtain ⟨hlt, hfits, -⟩ := List.findIdx?_eq_some_iff_getElem.mp hfind
        obtain ⟨before, after, hfree, rfl⟩ :=
          exists_split_of_getElem? (List.getElem?_eq_getElem hlt)
        have hget : h.free.getD before.length (0, 0) = h.free[before.length] := by simp [hlt]
        rw [hget]
        generalize h.free[before.length] = entry at hfree hfits ⊢
        obtain ⟨addr, block⟩ := entry
        simp only
        rw [takeFree_tables hfree]
        exact .reused before after addr block hfree (by simpa using hfits)
    · split
      · exact .refused
      · next hroom =>
          have htables : ((h.bump (roundUp size)).insertLive h.next (roundUp size)).toHeapTables =
              { h.toHeapTables with
                next := h.next + roundUp size
                live := h.live.insert h.next (roundUp size) } := by
            simp [insertLive, bump]
          rw [htables]
          exact .grown (by omega)

theorem coalesce_append {h : HeapState} {before rest : List (Nat × Nat)} {b : Nat × Nat}
    (hfree : h.free = before ++ b :: rest) :
    (h.coalesce before.length).toHeapTables =
      { h.toHeapTables with free := before ++ joinNext b rest } := by
  have hself : h.toHeapTables = { h.toHeapTables with free := before ++ b :: rest } := by
    rw [← hfree]
  have hat : h.free[before.length]? = some b := by simp [hfree]
  obtain ⟨addr, size⟩ := b
  cases rest with
  | nil =>
      have hnext : h.free[before.length + 1]? = none := by simp [hfree]
      unfold coalesce
      rw [hat, hnext]
      exact hself
  | cons c rest =>
      obtain ⟨addr', size'⟩ := c
      have hnext : h.free[before.length + 1]? = some (addr', size') := by
        simp [hfree]
      unfold coalesce joinNext
      rw [hat, hnext]
      simp only
      split
      · have hmerged : (h.free.set before.length (addr, size + size')).eraseIdx
            (before.length + 1) = before ++ (addr, size + size') :: rest := by
          rw [hfree]
          simp [List.eraseIdx_append_of_length_le]
        simp [hmerged]
      · exact hself

theorem releaseStep_release {h : HeapState} (hw : h.WellFormed) (addr : Nat) :
    ReleaseStep h.toHeapTables addr (h.release addr).1.toHeapTables := by
  unfold release
  split
  · exact .unknown
  · next size hlive =>
      have hordered := (hw.release hlive).free_ordered
      simp only at hordered
      have hsplit : h.free = (h.free.takeWhile fun entry => decide (entry.1 < addr)) ++
          h.free.dropWhile fun entry => decide (entry.1 < addr) :=
        List.takeWhile_append_dropWhile.symm
      generalize (h.free.dropWhile fun entry => decide (entry.1 < addr)) = after at hsplit
      generalize hbefore : (h.free.takeWhile fun entry => decide (entry.1 < addr)) = before at *
      have hindex : (h.dropLive addr size).freePosition addr = before.length := by
        simp [dropLive, freePosition, hbefore]
      rw [hsplit, insertIdx_length_append] at hordered
      have hput : ((h.dropLive addr size).insertFree before.length addr size).toHeapTables =
          { h.toHeapTables with
            live := h.live.erase addr, free := before ++ (addr, size) :: after } := by
        simp only [insertFree, dropLive, log_toHeapTables]
        rw [hsplit, insertIdx_length_append]
      simp only [hindex]
      generalize (h.dropLive addr size).insertFree before.length addr size = put at hput ⊢
      have hfree : put.free = before ++ (addr, size) :: after := by rw [hput]
      have hright := coalesce_append hfree
      rw [hput] at hright
      split
      · next hpos =>
          obtain ⟨init, p, rfl⟩ : ∃ init p, before = init ++ [p] :=
            ⟨before.dropLast, before.getLast (List.ne_nil_of_length_pos hpos),
              (List.dropLast_append_getLast _).symm⟩
          have hlen : (init ++ [p]).length - 1 = init.length := by simp
          rw [hlen]
          have hjoined : (put.coalesce (init ++ [p]).length).free =
              init ++ p :: joinNext (addr, size) after := by
            rw [hright]
            simp
          rw [coalesce_append hjoined, hright]
          exact .joined size _ after _ hlive hsplit hordered (.inr ⟨init, p, rfl, rfl⟩)
      · next hpos =>
          obtain rfl : before = [] := List.eq_nil_of_length_eq_zero (by omega)
          rw [hright]
          exact .joined size [] after _ hlive hsplit hordered (.inl ⟨rfl, rfl⟩)

end HeapState

namespace HeapTables.Tiled

variable {t t' : HeapTables}

theorem aligned_insert (ht : t.Tiled) {addr size : Nat} (hnew : AlignedBlock (addr, size))
    (a s : Nat) (h : (t.live.insert addr size).lookup a = some s) : AlignedBlock (a, s) := by
  by_cases ha : a = addr
  · subst ha
    rw [Finmap.lookup_insert] at h
    obtain rfl := Option.some.inj h
    exact hnew
  · rw [Finmap.lookup_insert_of_ne _ ha] at h
    exact ht.live_aligned a s h

/-- A live block stays live through the insertion of one at an address that was free. -/
theorem lookup_insert_of_new {addr size a s : Nat} (hnew : addr ∉ t.live)
    (h : t.live.lookup a = some s) : (t.live.insert addr size).lookup a = some s := by
  have hne : a ≠ addr := by
    rintro rfl
    exact hnew (Finmap.mem_of_lookup_eq_some h)
  rw [Finmap.lookup_insert_of_ne _ hne]
  exact h

theorem alloc (ht : t.Tiled) {size : Nat} {result : Option Nat}
    (hstep : AllocStep t size t' result) (hw : t'.WellFormed) : t'.Tiled := by
  obtain ⟨-, hpos, hdvd⟩ := roundUp_spec size
  cases hstep with
  | refused => exact ht
  | reused before after addr block hfree hfits =>
      have hblock := ht.free_aligned (addr, block) (by rw [hfree]; simp)
      have hnew : addr ∉ t.live := ht.free_not_live (b := (addr, block)) (by rw [hfree]; simp)
      have hordered := ht.free_apart
      rw [hfree, FreeOrdered, List.pairwise_append, List.pairwise_cons] at hordered
      obtain ⟨hbefore, ⟨hhead, hafter⟩, hcross⟩ := hordered
      have hleft : ∀ b ∈ leftover addr block (roundUp size), addr < b.1 ∧
          b.1 + b.2 = addr + block ∧ AlignedBlock b := by
        intro b hb
        unfold leftover at hb
        split at hb
        · simp at hb
        · obtain rfl := List.mem_singleton.mp hb
          refine ⟨by simp only; omega, by simp only; omega, ?_, ?_, ?_⟩
          · exact hblock.1.trans (Nat.le_add_right _ _)
          · exact Nat.dvd_add hblock.2.1 hdvd
          · exact Nat.dvd_sub hblock.2.2 hdvd
      refine ⟨hw, ?_, ?_, ht.aligned_insert ⟨hblock.1, hblock.2.1, hdvd⟩, ht.next_aligned, ?_⟩
      · rw [FreeOrdered, List.pairwise_append, List.pairwise_append]
        refine ⟨hbefore, ⟨?_, hafter, ?_⟩, ?_⟩
        · unfold leftover
          split <;> simp
        · intro x hx y hy
          have hend := (hleft x hx).2.1
          have hlt := hhead y hy
          simp only at hlt
          omega
        · intro x hx y hy
          have hlt := hcross x hx (addr, block) (by simp)
          rcases List.mem_append.mp hy with hy | hy
          · have hstart := (hleft y hy).1
            simp only at hlt
            omega
          · exact hcross x hx y (by simp [hy])
      · intro b hb
        rcases List.mem_append.mp hb with hb | hb
        · exact ht.free_aligned b (by rw [hfree]; simp [hb])
        · rcases List.mem_append.mp hb with hb | hb
          · exact (hleft b hb).2.2
          · exact ht.free_aligned b (by rw [hfree]; simp [hb])
      · intro a hlo hhi
        rcases ht.covered a hlo hhi with ⟨b, hb, hheld⟩ | ⟨addr', s, hs, hheld⟩
        · rw [hfree, List.mem_append, List.mem_cons] at hb
          rcases hb with hb | rfl | hb
          · exact .inl ⟨b, by simp [hb], hheld⟩
          · -- the byte is in the block taken: in its front, or in what is left of it
            simp only at hheld
            by_cases hfront : a < addr + roundUp size
            · exact .inr ⟨addr, _, Finmap.lookup_insert _, hheld.1, hfront⟩
            · have hne : block ≠ roundUp size := by omega
              refine .inl ⟨(addr + roundUp size, block - roundUp size), ?_, ?_, ?_⟩
              · simp [leftover, hne]
              · simp only
                omega
              · simp only
                omega
          · exact .inl ⟨b, by simp [hb], hheld⟩
        · exact .inr ⟨addr', s, lookup_insert_of_new hnew hs, hheld⟩
  | grown hroom =>
      have hnext := ht.next_aligned
      refine ⟨hw, ht.free_apart, ht.free_aligned, ?_, ?_, ?_⟩
      · exact ht.aligned_insert ⟨hnext.1, hnext.2, hdvd⟩
      · exact ⟨hnext.1.trans (Nat.le_add_right _ _), Nat.dvd_add hnext.2 hdvd⟩
      · intro a hlo hhi
        by_cases hold : a < t.next
        · rcases ht.covered a hlo hold with hfree | ⟨addr, s, hs, hheld⟩
          · exact .inl hfree
          · exact .inr ⟨addr, s, lookup_insert_of_new ht.next_not_live hs, hheld⟩
        · exact .inr ⟨t.next, _, Finmap.lookup_insert _, by omega, hhi⟩

theorem aligned_join {b c : Nat × Nat} (hb : AlignedBlock b) (hc : AlignedBlock c) :
    AlignedBlock (b.1, b.2 + c.2) :=
  ⟨hb.1, hb.2.1, Nat.dvd_add hb.2.2 hc.2.2⟩

theorem release (ht : t.Tiled) {addr : Nat} (hstep : ReleaseStep t addr t')
    (hw : t'.WellFormed) : t'.Tiled := by
  cases hstep with
  | unknown => exact ht
  | joined size before after joined hlive hfree hordered hjoined =>
      rw [List.pairwise_append, List.pairwise_cons] at hordered
      obtain ⟨-, ⟨hright, -⟩, hcross⟩ := hordered
      have happart := ht.free_apart
      rw [hfree, FreeOrdered, List.pairwise_append] at happart
      obtain ⟨hbefore, hafter, -⟩ := happart
      have haligned := ht.free_aligned
      rw [hfree] at haligned
      have hown := ht.live_aligned addr size hlive
      -- the freed block and what follows it
      have htail : FreeOrdered (joinNext (addr, size) after) :=
        freeOrdered_joinNext hafter hright
      have htailAligned : ∀ x ∈ joinNext (addr, size) after, AlignedBlock x :=
        forall_joinNext hown (fun c hc => haligned c (by simp [hc]))
          fun c hc _ => aligned_join hown hc
      have htailStart : ∀ x ∈ joinNext (addr, size) after, addr ≤ x.1 := by
        refine forall_joinNext (P := fun x => addr ≤ x.1) le_rfl ?_ fun c _ _ => le_rfl
        intro c hc
        have hle := hright c hc
        simp only at hle
        omega
      have hheld : ∀ a, (addr ≤ a ∧ a < addr + size) ∨ HeldBy before a ∨ HeldBy after a →
          HeldBy joined a := by
        intro a ha
        rcases hjoined with ⟨rfl, rfl⟩ | ⟨init, p, rfl, rfl⟩
        · rcases ha with ha | ⟨b, hb, -⟩ | ha
          · exact heldBy_joinNext (.inl ha)
          · simp at hb
          · exact heldBy_joinNext (.inr ha)
        · have hput : ∀ {a}, HeldBy (joinNext p (joinNext (addr, size) after)) a →
              HeldBy (init ++ joinNext p (joinNext (addr, size) after)) a := by
            rintro a ⟨b, hb, hin⟩
            exact ⟨b, by simp [hb], hin⟩
          rcases ha with ha | ⟨b, hb, hin⟩ | ha
          · exact hput (heldBy_joinNext (.inr (heldBy_joinNext (.inl ha))))
          · rcases List.mem_append.mp hb with hb | hb
            · exact ⟨b, by simp [hb], hin⟩
            · obtain rfl := List.mem_singleton.mp hb
              exact hput (heldBy_joinNext (.inl hin))
          · exact hput (heldBy_joinNext (.inr (heldBy_joinNext (.inr ha))))
      refine ⟨hw, ?_, ?_, ?_, ht.next_aligned, ?_⟩
      · rcases hjoined with ⟨rfl, rfl⟩ | ⟨init, p, rfl, rfl⟩
        · exact htail
        · rw [List.pairwise_append] at hbefore
          obtain ⟨hinit, -, hlast⟩ := hbefore
          have hp : ∀ x ∈ joinNext (addr, size) after, p.1 + p.2 ≤ x.1 := by
            intro x hx
            have hle := hcross p (by simp) (addr, size) (by simp)
            exact hle.trans (htailStart x hx)
          have hpStart : ∀ x ∈ joinNext p (joinNext (addr, size) after), p.1 ≤ x.1 := by
            refine forall_joinNext (P := fun x => p.1 ≤ x.1) le_rfl ?_ fun c _ _ => le_rfl
            intro c hc
            have hle := hp c hc
            omega
          rw [FreeOrdered, List.pairwise_append]
          refine ⟨hinit, freeOrdered_joinNext htail hp, ?_⟩
          intro x hx y hy
          exact Nat.lt_of_lt_of_le (hlast x hx p (by simp)) (hpStart y hy)
      · rcases hjoined with ⟨rfl, rfl⟩ | ⟨init, p, rfl, rfl⟩
        · exact htailAligned
        · intro b hb
          rcases List.mem_append.mp hb with hb | hb
          · exact haligned b (by simp [hb])
          · have hpAligned := haligned p (by simp)
            exact forall_joinNext hpAligned htailAligned
              (fun c hc _ => aligned_join hpAligned hc) b hb
      · intro a s has
        by_cases ha : a = addr
        · subst ha
          simp at has
        · rw [Finmap.lookup_erase_ne ha] at has
          exact ht.live_aligned a s has
      · intro a hlo hhi
        rcases ht.covered a hlo hhi with hin | ⟨addr', s, hs, hin⟩
        · obtain ⟨b, hb, hbounds⟩ := hin
          rw [hfree, List.mem_append] at hb
          refine .inl (hheld a (.inr ?_))
          exact hb.imp (fun hb => ⟨b, hb, hbounds⟩) fun hb => ⟨b, hb, hbounds⟩
        · by_cases hsame : addr' = addr
          · subst hsame
            obtain rfl : s = size := Option.some.inj (hs.symm.trans hlive)
            exact .inl (hheld a (.inl hin))
          · exact .inr ⟨addr', s, by rw [Finmap.lookup_erase_ne hsame]; exact hs, hin⟩

end HeapTables.Tiled

namespace HeapState

theorem tiled_new : HeapState.new.Tiled := by
  refine ⟨wellFormed_new, List.Pairwise.nil, ?_, ?_, ⟨le_rfl, ?_⟩, ?_⟩
  · simp [new]
  · simp [new]
  · decide
  · intro a hlo hhi
    exact absurd hlo (Nat.not_le_of_lt hhi)

theorem tiled_run {h : HeapState} (ht : h.Tiled) (call : HeapCall) : (call.run h).Tiled := by
  have hw := (keeps_run ht.toWellFormed call).wellFormed
  cases call with
  | alloc size => exact ht.alloc (allocStep_alloc h size) hw
  | release addr => exact ht.release (releaseStep_release ht.toWellFormed addr) hw

end HeapState

end Playground
