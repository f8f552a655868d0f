/-
Stepping memory back.  The source keeps a step's log as runs of adjacent writes
and replays a run forwards, which is the same as reverting its bytes newest
first because a run never laps the address space: every address of a run is in
a mapped page, and the page budget is far too small for that.
-/
import Playground.Machine.PageTable

namespace Playground

def logEntries : List (Word × Nat) → List Byte → List (Word × Byte)
  | [], _ => []
  | (addr, len) :: runs, old => runEntries addr (old.take len) ++ logEntries runs (old.drop len)

/-- The number of bytes the runs cover. -/
def runsLength (runs : List (Word × Nat)) : Nat := (runs.map Prod.snd).sum

theorem runsLength_append (runs runs' : List (Word × Nat)) :
    runsLength (runs ++ runs') = runsLength runs + runsLength runs' := by
  simp [runsLength]

theorem logEntries_append (runs runs' : List (Word × Nat)) (old : List Byte) :
    logEntries (runs ++ runs') old =
      logEntries runs old ++ logEntries runs' (old.drop (runsLength runs)) := by
  induction runs generalizing old with
  | nil => simp [logEntries, runsLength]
  | cons run runs ih =>
      obtain ⟨addr, len⟩ := run
      have hdrop : (old.drop len).drop (runsLength runs) =
          old.drop (runsLength ((addr, len) :: runs)) := by
        simp [runsLength]
      simp only [List.cons_append, logEntries, ih, List.append_assoc, hdrop]

theorem logEntries_old_append (runs : List (Word × Nat)) (old : List Byte) (more : List Byte)
    (h : runsLength runs ≤ old.length) :
    logEntries runs (old ++ more) = logEntries runs old := by
  induction runs generalizing old with
  | nil => rfl
  | cons run runs ih =>
      obtain ⟨addr, len⟩ := run
      have hlen : len + runsLength runs ≤ old.length := by simpa [runsLength] using h
      have hrest := ih (old.drop len) (by rw [List.length_drop]; omega)
      rw [logEntries, logEntries, List.take_append_of_le_length (by omega),
        List.drop_append_of_le_length (by omega), hrest]

/-- The last run, when the next write starts where it ends. -/
theorem noteRun_cases (runs : List (Word × Nat)) (addr : Word) (len : Nat) :
    noteRun runs addr len = runs ++ [(addr, len)] ∨
    ∃ earlier start n, runs = earlier ++ [(start, n)] ∧ start + BitVec.ofNat 64 n = addr ∧
      noteRun runs addr len = earlier ++ [(start, n + len)] := by
  induction runs using List.reverseRecOn with
  | nil => exact .inl rfl
  | append_singleton earlier run _ =>
      obtain ⟨start, n⟩ := run
      by_cases h : start + BitVec.ofNat 64 n = addr
      · exact .inr ⟨earlier, start, n, rfl, h, by simp [noteRun, h]⟩
      · exact .inl (by simp [noteRun, h])

theorem runsLength_noteRun (runs : List (Word × Nat)) (addr : Word) (len : Nat) :
    runsLength (noteRun runs addr len) = runsLength runs + len := by
  rcases noteRun_cases runs addr len with h | ⟨earlier, start, n, rfl, -, h⟩
  · simp [h, runsLength]
  · simp [h, runsLength]
    omega

/-- Noting a write's run logs exactly the bytes it replaced. -/
theorem logEntries_noteRun {runs : List (Word × Nat)} {old : List Byte} (replaced : List Byte)
    (addr : Word)
    (h : runsLength runs = old.length) :
    logEntries (noteRun runs addr replaced.length) (old ++ replaced) =
      logEntries runs old ++ runEntries addr replaced := by
  rcases noteRun_cases runs addr replaced.length with hnote | ⟨earlier, start, n, rfl, hend, hnote⟩
  · rw [hnote, logEntries_append, logEntries_old_append _ old replaced h.le, h]
    simp [logEntries]
  · have hlen : runsLength earlier + n = old.length := by
      simpa [runsLength] using h
    rw [hnote, logEntries_append, logEntries_append,
      logEntries_old_append _ old replaced (by omega : runsLength earlier ≤ old.length),
      List.drop_append_of_le_length (by omega), List.append_assoc]
    have hold : (old.drop (runsLength earlier)).length = n := by
      rw [List.length_drop]
      omega
    have htake : (old.drop (runsLength earlier) ++ replaced).take (n + replaced.length) =
        old.drop (runsLength earlier) ++ replaced := by
      apply List.take_of_length_le
      rw [List.length_append, hold]
    simp only [logEntries, List.append_nil, htake, runEntries_append, hold, hend]
    rw [List.take_of_length_le hold.le]

/-- Remove each page the step mapped. -/
def eraseAll (mapped : List Word) (p : Pages) : Pages :=
  mapped.foldl (fun pages base => pages.erase base) p

theorem revertAll_insert {entries : List (Word × Byte)} {base : Word} (page : Page) {p : Pages}
    (h : ∀ entry ∈ entries, pageBase entry.1 ≠ base) :
    Journal.revertAll revertPoke entries (p.insert base page) =
      (Journal.revertAll revertPoke entries p).insert base page := by
  induction entries with
  | nil => rfl
  | cons entry entries ih =>
      have hne : pageBase entry.1 ≠ base := h entry List.mem_cons_self
      rw [Journal.revertAll_cons, Journal.revertAll_cons,
        ih fun e he => h e (List.mem_cons_of_mem _ he)]
      apply Finmap.ext_lookup
      intro key
      by_cases hkey : key = base
      · subst hkey
        rw [revertPoke, lookup_poke, if_neg (Ne.symm hne), Finmap.lookup_insert,
          Finmap.lookup_insert]
      · rw [revertPoke, lookup_poke, Finmap.lookup_insert_of_ne _ hkey,
          Finmap.lookup_insert_of_ne _ hkey, revertPoke, lookup_poke]

theorem lookup_eraseAll (mapped : List Word) (p : Pages) (base : Word) :
    (eraseAll mapped p).lookup base = if base ∈ mapped then none else p.lookup base := by
  induction mapped generalizing p with
  | nil => simp [eraseAll]
  | cons head mapped ih =>
      rw [eraseAll, List.foldl_cons, ← eraseAll, ih]
      by_cases hbase : base = head
      · subst hbase
        simp
      · simp [hbase]

@[simp] theorem keys_revertAll (entries : List (Word × Byte)) (p : Pages) :
    (Journal.revertAll revertPoke entries p).keys = p.keys := by
  induction entries with
  | nil => rfl
  | cons entry entries ih => rw [Journal.revertAll_cons, revertPoke, keys_poke, ih]

/-- Pages the loader maps outside any budget: the stack, code and data pages,
argv's page and the two pages of stdio globals. -/
def baselinePages : Finset Word :=
  {0x7FFFF000, 0x7FFFE000, 0x7FFFD000, 0x7FFFC000, 0x400000, 0x401000, 0x402000, 0x403000,
    0x500000, 0x600000, 0x700000, 0x800000, 0x801000, 0x802000}

namespace Memory

/-- The page budget: past the baseline, no more pages than the cap. -/
def Budgeted (m : Memory) : Prop :=
  (m.pages.keys \ baselinePages).card ≤ maxMappedPages

variable {m : Memory} {addr : Word} {bytes : List Byte}

theorem Budgeted.card_le (h : m.Budgeted) : m.pages.keys.card ≤ 8206 := by
  have hbase : baselinePages.card ≤ 14 := by decide
  have hsplit := Finset.card_le_card_sdiff_add_card (s := m.pages.keys) (t := baselinePages)
  have hcap : (m.pages.keys \ baselinePages).card ≤ 8192 := h
  omega

/-- A run that lies in mapped pages is no longer than they are. -/
theorem run_le {p : Pages} {start : Word} {n : Nat} (hn : n ≤ 2 ^ 64)
    (hmapped : ∀ i < n, pageBase (start + BitVec.ofNat 64 i) ∈ p) :
    n ≤ p.keys.card * 4096 := by
  have hcard := Finset.card_le_card_of_injOn (s := Finset.range n)
    (t := p.keys ×ˢ Finset.range 4096)
    (fun i => (pageBase (start + BitVec.ofNat 64 i),
      (pageOffset (start + BitVec.ofNat 64 i)).toNat)) ?_ ?_
  · simpa using hcard
  · intro i hi
    simp only [Finset.coe_range, Set.mem_Iio] at hi
    simp only [Finset.coe_product, Set.mem_prod, Finset.mem_coe, Finmap.mem_keys,
      Finset.mem_range]
    exact ⟨hmapped i hi, (pageOffset _).isLt⟩
  · intro i hi j hj hij
    simp only [Finset.coe_range, Set.mem_Iio] at hi hj
    simp only [Prod.mk.injEq] at hij
    have haddr := eq_of_pageBase_pageOffset hij.1 (BitVec.eq_of_toNat_eq hij.2)
    have hofNat : BitVec.ofNat 64 i = BitVec.ofNat 64 j := by simpa using haddr
    have htoNat := congrArg BitVec.toNat hofNat
    simp only [BitVec.toNat_ofNat] at htoNat
    omega

/-- `m` is partway through a step that began with the page table `p`. -/
structure Recorded (p : Pages) (m : Memory) : Prop where
  recording : m.recording = true
  lengths : runsLength m.undo.runs = m.undo.old.length
  short : ∀ run ∈ m.undo.runs, run.2 ≤ 2 ^ 64
  mapped : ∀ entry ∈ logEntries m.undo.runs m.undo.old, pageBase entry.1 ∈ m.pages
  restores : eraseAll m.undo.mapped
    (Journal.revertAll revertPoke (logEntries m.undo.runs m.undo.old) m.pages) = p

/-- What one write leaves: the page mapped if it was not, the bytes poked in,
and the log grown by the run. -/
structure Wrote (m : Memory) (addr : Word) (bytes : List Byte) (m' : Memory) : Prop where
  recording : m'.recording = m.recording
  zeroFill : m'.zeroFill = m.zeroFill
  budget : pageBase addr ∈ m.pages ∨ m.pages.keys.card < maxMappedPages
  pages : ∃ p, (pageBase addr ∈ m.pages ∧ p = m.pages ∨
      pageBase addr ∉ m.pages ∧ p = m.pages.insert (pageBase addr) zeroPage) ∧
    m'.pages = pokeAll p addr bytes ∧
    (m.recording = true → m'.undo.old = m.undo.old ++ peekAll p addr bytes.length)
  runs : m'.undo.runs = noteRun m.undo.runs addr bytes.length
  mapped : m.recording = true → m'.undo.mapped =
    if pageBase addr ∈ m.pages then m.undo.mapped else m.undo.mapped ++ [pageBase addr]

/-- A write inside one page is refused whole or done whole. -/
theorem writeInPage_cases (m : Memory) (addr : Word) (bytes : List Byte)
    (hfits : (pageOffset addr).toNat + bytes.length ≤ 4096) :
    (m.writeInPage addr bytes = (m, .error (.memoryFault addr .write)) ∧
      pageBase addr ∉ m.pages) ∨
    ∃ m', m.writeInPage addr bytes = (m', .ok ()) ∧ Wrote m addr bytes m' := by
  by_cases hrefused : pageBase addr ∉ m.pages ∧ maxMappedPages ≤ m.mappedPageCount
  · exact .inl ⟨by simp [writeInPage, hrefused], hrefused.1⟩
  · have hbudget : pageBase addr ∈ m.pages ∨ m.pages.keys.card < maxMappedPages := by
      rw [not_and_or, not_not, Nat.not_le] at hrefused
      exact hrefused
    right
    refine ⟨((m.pageOrMap (pageBase addr)).1.storeInPage addr
      (m.pageOrMap (pageBase addr)).2 bytes), by simp [writeInPage, hrefused], ?_⟩
    cases hpage : m.pages.lookup (pageBase addr) with
    | some page =>
        have hmem : pageBase addr ∈ m.pages := Finmap.mem_of_lookup_eq_some hpage
        have hmap : m.pageOrMap (pageBase addr) = (m, page) := by simp [pageOrMap, hpage]
        rw [hmap]
        refine ⟨rfl, rfl, hbudget, ⟨m.pages, .inl ⟨hmem, rfl⟩, ?_, ?_⟩, rfl, ?_⟩
        · exact insert_splice _ _ _ hpage hfits
        · intro hrec
          rw [← slice_eq_peekAll hpage hfits]
          simp [storeInPage, noteWrite, hrec]
        · intro _
          simp [storeInPage, noteWrite, hmem]
    | none =>
        have hmem : pageBase addr ∉ m.pages := Finmap.lookup_eq_none.mp hpage
        have hzero : (m.pages.insert (pageBase addr) zeroPage).lookup (pageBase addr) =
            some zeroPage := Finmap.lookup_insert _
        refine ⟨?_, ?_, hbudget, ⟨_, .inr ⟨hmem, rfl⟩, ?_, ?_⟩, ?_, ?_⟩
        · simp [pageOrMap, hpage, storeInPage, noteWrite]
        · simp [pageOrMap, hpage, storeInPage, noteWrite]
        · rw [← insert_splice _ _ _ hzero hfits, Finmap.insert_insert]
          simp [pageOrMap, hpage, storeInPage, noteWrite]
        · intro hrec
          rw [← slice_eq_peekAll hzero hfits]
          simp [pageOrMap, hpage, storeInPage, noteWrite, hrec]
        · simp only [pageOrMap, hpage, storeInPage, noteWrite]
          split <;> rfl
        · intro hrec
          simp [pageOrMap, hpage, storeInPage, noteWrite, hrec, hmem]

theorem Wrote.budgeted {m' : Memory}
    (hw : Wrote m addr bytes m') (hm : m.Budgeted) : m'.Budgeted := by
  obtain ⟨p, hp, hpages, -⟩ := hw.pages
  unfold Budgeted at *
  rw [hpages, keys_pokeAll]
  rcases hp with ⟨-, rfl⟩ | ⟨hnew, rfl⟩
  · exact hm
  · have hroom : m.pages.keys.card < maxMappedPages := hw.budget.resolve_left hnew
    have hkeys : (m.pages.insert (pageBase addr) zeroPage).keys ⊆
        insert (pageBase addr) m.pages.keys := by
      intro key hkey
      rw [Finmap.mem_keys, Finmap.mem_insert] at hkey
      rwa [Finset.mem_insert, Finmap.mem_keys]
    calc ((m.pages.insert (pageBase addr) zeroPage).keys \ baselinePages).card
        ≤ (m.pages.insert (pageBase addr) zeroPage).keys.card :=
          Finset.card_le_card Finset.sdiff_subset
      _ ≤ (insert (pageBase addr) m.pages.keys).card := Finset.card_le_card hkeys
      _ ≤ m.pages.keys.card + 1 := Finset.card_insert_le _ _
      _ ≤ maxMappedPages := hroom

theorem Wrote.mem_pages {m' : Memory} (hw : Wrote m addr bytes m') {base : Word} :
    base ∈ m'.pages ↔ base = pageBase addr ∨ base ∈ m.pages := by
  obtain ⟨p, hp, hpages, -⟩ := hw.pages
  rw [← Finmap.mem_keys, hpages, keys_pokeAll, Finmap.mem_keys]
  rcases hp with ⟨hmem, rfl⟩ | ⟨-, rfl⟩
  · constructor
    · exact .inr
    · rintro (rfl | h)
      · exact hmem
      · exact h
  · rw [Finmap.mem_insert]

theorem pageBase_add_of_fits {n i : Nat} (hfits : (pageOffset addr).toNat + n ≤ 4096) (hi : i < n) :
    pageBase (addr + BitVec.ofNat 64 i) = pageBase addr := by
  induction i generalizing addr n with
  | zero => simp
  | succ i ih =>
      have hnext : pageBase (addr + 1) = pageBase addr := pageBase_add_one (by omega)
      have hoff : (pageOffset (addr + 1)).toNat = (pageOffset addr).toNat + 1 := by
        rw [pageOffset_add_one, BitVec.toNat_add]
        simp
        omega
      rw [← add_one_add_ofNat, ih (n := n - 1) (by omega) (by omega), hnext]

/-- The bound that keeps a growing run from lapping the address space. -/
theorem Recorded.run_short {p : Pages} (hr : Recorded p m) (hm : m.Budgeted)
    {run : Word × Nat} (hrun : run ∈ m.undo.runs) : run.2 ≤ 2 ^ 32 := by
  obtain ⟨start, n⟩ := run
  obtain ⟨before, after, hsplit⟩ := List.append_of_mem hrun
  have hmem : ∀ i < n, pageBase (start + BitVec.ofNat 64 i) ∈ m.pages := by
    intro i hi
    have hlen := hr.lengths
    rw [hsplit, runsLength_append] at hlen
    have hlen' : runsLength before + (n + runsLength after) = m.undo.old.length := by
      simpa [runsLength] using hlen
    have htake : ((m.undo.old.drop (runsLength before)).take n).length = n := by
      rw [List.length_take, List.length_drop]
      omega
    obtain ⟨entry, hentry, haddr⟩ := exists_mem_runEntries start
      (show i < ((m.undo.old.drop (runsLength before)).take n).length by omega)
    rw [← haddr]
    apply hr.mapped
    rw [hsplit, logEntries_append, logEntries]
    exact List.mem_append_right _ (List.mem_append_left _ hentry)
  have hle := run_le (hr.short _ hrun) hmem
  have hcard := hm.card_le
  simp only at hle ⊢
  omega

/-- A recorded write stays undoable while no run laps the address space. -/
theorem Recorded.wrote_of_short {p : Pages} {m' : Memory}
    (hr : Recorded p m) (hfits : (pageOffset addr).toNat + bytes.length ≤ 4096)
    (hw : Wrote m addr bytes m') (hshort : ∀ run ∈ m'.undo.runs, run.2 ≤ 2 ^ 64) :
    Recorded p m' := by
  obtain ⟨q, hq, hpages, hold⟩ := hw.pages
  have hlog : logEntries m'.undo.runs m'.undo.old = logEntries m.undo.runs m.undo.old ++
      runEntries addr (peekAll q addr bytes.length) := by
    have hnote := logEntries_noteRun (peekAll q addr bytes.length) addr hr.lengths
    rw [length_peekAll] at hnote
    rw [hw.runs, hold hr.recording, hnote]
  have hundone : Journal.revertAll revertPoke (logEntries m'.undo.runs m'.undo.old) m'.pages =
      Journal.revertAll revertPoke (logEntries m.undo.runs m.undo.old) q := by
    have hrun : Journal.revertAll revertPoke
        (runEntries addr (peekAll q addr bytes.length)) (pokeAll q addr bytes) = q :=
      undoes_pokeAll q addr bytes (by omega)
    rw [hlog, Journal.revertAll_append, hpages, hrun]
  refine ⟨hw.recording.trans hr.recording, ?_, hshort, ?_, ?_⟩
  · rw [hw.runs, runsLength_noteRun, hr.lengths, hold hr.recording, List.length_append,
      length_peekAll]
  · intro entry hentry
    rw [hlog, List.mem_append] at hentry
    rw [hw.mem_pages]
    rcases hentry with hentry | hentry
    · exact .inr (hr.mapped entry hentry)
    · obtain ⟨i, hi, haddr⟩ := mem_runEntries hentry
      rw [length_peekAll] at hi
      exact .inl (by rw [haddr, pageBase_add_of_fits hfits hi])
  · rw [hundone, hw.mapped hr.recording]
    rcases hq with ⟨hmem, rfl⟩ | ⟨hnew, rfl⟩
    · rw [if_pos hmem]
      exact hr.restores
    · rw [if_neg hnew, revertAll_insert]
      · have herase := hr.restores
        rw [← herase]
        apply Finmap.ext_lookup
        intro base
        rw [lookup_eraseAll, lookup_eraseAll]
        by_cases hbase : base = pageBase addr
        · have hnone : (Journal.revertAll revertPoke
              (logEntries m.undo.runs m.undo.old) m.pages).lookup base = none := by
            rw [Finmap.lookup_eq_none, ← Finmap.mem_keys, keys_revertAll, Finmap.mem_keys, hbase]
            exact hnew
          subst hbase
          simp [hnone]
        · simp [hbase]
      · intro entry hentry heq
        exact hnew (heq ▸ hr.mapped entry hentry)

/-- Every recorded write stays undoable. -/
theorem Recorded.wrote {p : Pages} {m' : Memory}
    (hr : Recorded p m) (hm : m.Budgeted) (hfits : (pageOffset addr).toNat + bytes.length ≤ 4096)
    (hw : Wrote m addr bytes m') : Recorded p m' := by
  refine hr.wrote_of_short hfits hw ?_
  intro run hrun
  rw [hw.runs] at hrun
  rcases noteRun_cases m.undo.runs addr bytes.length with h | ⟨earlier, start, n, hsplit, -, h⟩
  · rw [h, List.mem_append, List.mem_singleton] at hrun
    rcases hrun with hrun | rfl
    · exact hr.short run hrun
    · simp only
      omega
  · rw [h, List.mem_append, List.mem_singleton] at hrun
    rcases hrun with hrun | rfl
    · exact hr.short run (by rw [hsplit]; exact List.mem_append_left _ hrun)
    · have hshort := hr.run_short hm
        (show (start, n) ∈ m.undo.runs by rw [hsplit]; simp)
      simp only at hshort ⊢
      omega

/-- What a run of writes preserves: the flags, and each step log it is part of. -/
structure Keeps (m m' : Memory) : Prop where
  recording : m'.recording = m.recording
  zeroFill : m'.zeroFill = m.zeroFill
  budgeted : m.Budgeted → m'.Budgeted
  recorded : ∀ p, m.Budgeted → Recorded p m → Recorded p m'

theorem Keeps.refl (m : Memory) : Keeps m m :=
  ⟨rfl, rfl, id, fun _ _ => id⟩

theorem Keeps.trans {m' m'' : Memory} (first : Keeps m m') (second : Keeps m' m'') :
    Keeps m m'' :=
  ⟨second.recording.trans first.recording, second.zeroFill.trans first.zeroFill,
    fun hm => second.budgeted (first.budgeted hm),
    fun p hm hr => second.recorded p (first.budgeted hm) (first.recorded p hm hr)⟩

theorem keeps_writeInPage (m : Memory) (addr : Word) (bytes : List Byte)
    (hfits : (pageOffset addr).toNat + bytes.length ≤ 4096) :
    Keeps m (m.writeInPage addr bytes).1 := by
  rcases m.writeInPage_cases addr bytes hfits with ⟨h, -⟩ | ⟨m', h, hw⟩
  · rw [h]
    exact Keeps.refl m
  · rw [h]
    exact ⟨hw.recording, hw.zeroFill, hw.budgeted, fun p hm hr => hr.wrote hm hfits hw⟩

theorem keeps_writeByte (m : Memory) (addr : Word) (byte : Byte) :
    Keeps m (m.writeInPage addr [byte]).1 :=
  keeps_writeInPage m addr [byte] (pageOffset addr).isLt

theorem keeps_writeBytes (m : Memory) (addr : Word) (bytes : List Byte) :
    Keeps m (m.writeBytes addr bytes).1 := by
  induction bytes generalizing m addr with
  | nil => exact Keeps.refl m
  | cons byte bytes ih =>
      have hhead := keeps_writeByte m addr byte
      rw [writeBytes]
      split
      · next m' h =>
          rw [h] at hhead
          exact hhead.trans (ih m' (addr + 1))
      · next m' e h =>
          rw [h] at hhead
          exact hhead

theorem keeps_writeLe (m : Memory) (addr : Word) (bytes : List Byte) (hpos : 0 < bytes.length)
    (hlen : bytes.length ≤ 16) : Keeps m (m.writeLe addr bytes).1 := by
  rw [writeLe]
  split
  · exact keeps_writeBytes m addr bytes
  · next h =>
      exact keeps_writeInPage m addr bytes
        (offset_add_le_of_not_spansPage hpos hlen (by simpa using h))

/-- Bytes written over mapped pages all land. -/
theorem writeInPage_pages (bytes : List Byte)
    (hfits : (pageOffset addr).toNat + bytes.length ≤ 4096) (hmem : pageBase addr ∈ m.pages) :
    ∃ m', m.writeInPage addr bytes = (m', .ok ()) ∧ m'.pages = pokeAll m.pages addr bytes ∧
      m'.recording = m.recording ∧ m'.zeroFill = m.zeroFill := by
  rcases m.writeInPage_cases addr bytes hfits with ⟨-, hnot⟩ | ⟨m', h, hw⟩
  · exact absurd hmem hnot
  · obtain ⟨p, hp, hpages, -⟩ := hw.pages
    rcases hp with ⟨-, rfl⟩ | ⟨hnot, -⟩
    · exact ⟨m', h, hpages, hw.recording, hw.zeroFill⟩
    · exact absurd hmem hnot

theorem writeBytes_pages
    (hmem : ∀ i < bytes.length, pageBase (addr + BitVec.ofNat 64 i) ∈ m.pages) :
    (m.writeBytes addr bytes).1.pages = pokeAll m.pages addr bytes := by
  induction bytes generalizing m addr with
  | nil => rfl
  | cons byte bytes ih =>
      have hhead : pageBase addr ∈ m.pages := by simpa using hmem 0 (Nat.succ_pos _)
      obtain ⟨m', h, hpages, -⟩ :=
        writeInPage_pages [byte] (pageOffset addr).isLt hhead
      rw [writeBytes, h]
      simp only
      rw [ih, hpages]
      · rfl
      · intro i hi
        rw [← Finmap.mem_keys, hpages, keys_pokeAll, Finmap.mem_keys, add_one_add_ofNat]
        exact hmem (i + 1) (Nat.succ_lt_succ hi)

theorem writeLe_pages (hpos : 0 < bytes.length) (hlen : bytes.length ≤ 16)
    (hmem : ∀ i < bytes.length, pageBase (addr + BitVec.ofNat 64 i) ∈ m.pages) :
    (m.writeLe addr bytes).1.pages = pokeAll m.pages addr bytes := by
  rw [writeLe]
  split
  · exact writeBytes_pages hmem
  · next h =>
      have hfits := offset_add_le_of_not_spansPage hpos hlen (by simpa using h)
      obtain ⟨m', hwrite, hpages, -⟩ :=
        writeInPage_pages _ hfits (by simpa using hmem 0 hpos)
      rw [hwrite]
      exact hpages

/-- Writing a run back in chunks of 16 pokes it whole. -/
theorem restoreChunks_pages (m : Memory) (addr : Word) (old : List Byte)
    (hmem : ∀ i < old.length, pageBase (addr + BitVec.ofNat 64 i) ∈ m.pages) :
    (m.restoreChunks addr old).pages = pokeAll m.pages addr old ∧
    (m.restoreChunks addr old).recording = m.recording ∧
    (m.restoreChunks addr old).zeroFill = m.zeroFill := by
  have hprefix : ∀ k ≤ (old.length + 15) / 16,
      ((List.range k).foldl (fun m i =>
        (m.writeLe (addr + BitVec.ofNat 64 (16 * i)) ((old.drop (16 * i)).take 16)).1) m).pages =
        pokeAll m.pages addr (old.take (16 * k)) ∧
      ((List.range k).foldl (fun m i =>
        (m.writeLe (addr + BitVec.ofNat 64 (16 * i)) ((old.drop (16 * i)).take 16)).1)
        m).recording = m.recording ∧
      ((List.range k).foldl (fun m i =>
        (m.writeLe (addr + BitVec.ofNat 64 (16 * i)) ((old.drop (16 * i)).take 16)).1)
        m).zeroFill = m.zeroFill := by
    intro k
    induction k with
    | zero => exact fun _ => ⟨by simp [pokeAll], rfl, rfl⟩
    | succ k ih =>
        intro hk
        obtain ⟨hpages, hrec, hzero⟩ := ih (by omega)
        rw [List.range_succ, List.foldl_append, List.foldl_cons, List.foldl_nil]
        have hlen : ((old.drop (16 * k)).take 16).length = min 16 (old.length - 16 * k) := by
          rw [List.length_take, List.length_drop]
        have hkeeps := keeps_writeLe
          ((List.range k).foldl (fun m i =>
            (m.writeLe (addr + BitVec.ofNat 64 (16 * i)) ((old.drop (16 * i)).take 16)).1) m)
          (addr + BitVec.ofNat 64 (16 * k)) ((old.drop (16 * k)).take 16) (by omega) (by omega)
        refine ⟨?_, hkeeps.recording.trans hrec, hkeeps.zeroFill.trans hzero⟩
        rw [writeLe_pages (by omega) (by omega), hpages]
        · have htake : (old.take (16 * k)).length = 16 * k := by
            rw [List.length_take]
            omega
          rw [Nat.mul_succ, List.take_add, pokeAll_append, htake]
        · intro i hi
          rw [← Finmap.mem_keys, hpages, keys_pokeAll, Finmap.mem_keys, BitVec.add_assoc,
            ← BitVec.ofNat_add]
          exact hmem _ (by omega)
  obtain ⟨hpages, hrest⟩ := hprefix _ le_rfl
  refine ⟨?_, hrest⟩
  rw [restoreChunks, hpages, List.take_of_length_le (by omega)]

/-- Putting the runs back reverts the whole log. -/
theorem restoreRuns_pages {runs : List (Word × Nat)} (m : Memory) (old : List Byte)
    (hlen : runsLength runs = old.length) (hshort : ∀ run ∈ runs, run.2 ≤ 2 ^ 64)
    (hmem : ∀ entry ∈ logEntries runs old, pageBase entry.1 ∈ m.pages) :
    (m.restoreRuns old runs.reverse).pages =
      Journal.revertAll revertPoke (logEntries runs old) m.pages ∧
    (m.restoreRuns old runs.reverse).recording = m.recording ∧
    (m.restoreRuns old runs.reverse).zeroFill = m.zeroFill := by
  induction runs using List.reverseRecOn generalizing m old with
  | nil => exact ⟨rfl, rfl, rfl⟩
  | append_singleton runs run ih =>
      obtain ⟨addr, n⟩ := run
      have hsum : runsLength runs + n = old.length := by simpa [runsLength] using hlen
      have hstart : old.length - n = runsLength runs := by omega
      have hcount : (old.drop (runsLength runs)).length = n := by
        rw [List.length_drop]
        omega
      have hentries : logEntries (runs ++ [(addr, n)]) old =
          logEntries runs (old.take (runsLength runs)) ++
            runEntries addr (old.drop (runsLength runs)) := by
        have hold := logEntries_old_append runs (old.take (runsLength runs))
          (old.drop (runsLength runs)) (by rw [List.length_take]; omega)
        rw [List.take_append_drop] at hold
        rw [logEntries_append, hold, logEntries, logEntries, List.append_nil,
          List.take_of_length_le hcount.le]
      rw [List.reverse_append, List.reverse_singleton, List.singleton_append, restoreRuns]
      simp only [hstart]
      obtain ⟨hpages, hrec, hzero⟩ := restoreChunks_pages m addr
        (old.drop (runsLength runs)) fun i hi => by
          obtain ⟨entry, hentry, haddr⟩ := exists_mem_runEntries addr hi
          rw [← haddr]
          exact hmem entry (by rw [hentries]; exact List.mem_append_right _ hentry)
      obtain ⟨hrest, hrec', hzero'⟩ := ih
        (m.restoreChunks addr (old.drop (runsLength runs))) (old.take (runsLength runs))
        (by rw [List.length_take]; omega)
        (fun run hrun => hshort run (List.mem_append_left _ hrun))
        (fun entry hentry => by
          rw [← Finmap.mem_keys, hpages, keys_pokeAll, Finmap.mem_keys]
          exact hmem entry (by rw [hentries]; exact List.mem_append_left _ hentry))
      refine ⟨?_, hrec'.trans hrec, hzero'.trans hzero⟩
      have hnshort : n ≤ 2 ^ 64 := hshort (addr, n) (by simp)
      rw [hrest, hpages, hentries, Journal.revertAll_append,
        pokeAll_eq_revertAll _ _ _ (by omega)]

/-- Recording starts with an empty log that undoes to the current pages. -/
theorem recorded_recordUndo (m : Memory) (slot : MemUndo) :
    Recorded m.pages (m.recordUndo slot).1 :=
  ⟨rfl, rfl, by simp [recordUndo], by simp [recordUndo, logEntries], rfl⟩

/-- Undoing a step's log restores the pages the step began with, whatever
memory holds the step's result. -/
theorem undoStep_of_recorded {p : Pages} {other : Memory} (hr : Recorded p m)
    (hother : other.pages = m.pages) :
    (other.undoStep m.undo).pages = p ∧
    (other.undoStep m.undo).recording = other.recording ∧
    (other.undoStep m.undo).zeroFill = other.zeroFill := by
  obtain ⟨hpages, hrec, hzero⟩ := restoreRuns_pages other _ hr.lengths hr.short
    (fun entry hentry => by rw [hother]; exact hr.mapped entry hentry)
  refine ⟨?_, hrec, hzero⟩
  have hrestores := hr.restores
  rw [← hother, ← hpages] at hrestores
  exact hrestores

end Memory

end Playground
