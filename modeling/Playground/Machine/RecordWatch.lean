/-
The scan for overwritten frame records.  It looks for the lowest record a write reaches and
goes up the chain from there; on records that fall with depth it finds what a scan of every
caller finds.
-/
import Playground.Library.BackLinks
import Playground.Machine.CallNesting
import Playground.Machine.CallStackUndo

namespace Playground

/-- It has a frame record. -/
abbrev Activation.HasRecord (a : Activation) : Prop := a.record ≠ 0

namespace CallStack

open BackLinks

/-- The activations that called out: all but the innermost, or all of them when calls past
the cap lie further in. -/
def callers (s : CallStack) : List Activation :=
  if 0 < s.uncounted then s.acts else s.acts.dropLast

def RecordsFall (s : CallStack) : Prop :=
  (s.callers.filter fun a => decide a.HasRecord).Pairwise fun a b => b.record < a.record

/-- One write against one caller: a slot of its record that the write overlaps and that
holds something else now takes the hit. -/
def overwritten (mem : Memory) (step : Nat) (writer : Word × Word) (a : Activation)
    (write : Word × Nat) : Activation :=
  let overlaps (slot : Word) : Prop :=
    write.1.toNat < slot.toNat + 8 ∧ slot.toNat < write.1.toNat + write.2
  let hit : Hit := ⟨step, writer.1, (write.1 - writer.2).toInt⟩
  { a with
    fpHit := if overlaps a.record ∧ mem.readU64 a.record ≠ .ok a.fpEntry then hit else a.fpHit
    lrHit :=
      if overlaps (a.record + 8) ∧ mem.readU64 (a.record + 8) ≠ .ok a.retAddr then hit
      else a.lrHit }

/-- Every write against every caller that has a record. -/
def linearScan (s : CallStack) (writes : List (Word × Nat)) (step : Nat) (mem : Memory)
    (writer : Word × Word) : List Activation :=
  s.acts.mapIdx fun i a =>
    if i < s.callers.length ∧ a.HasRecord then writes.foldl (overwritten mem step writer) a
    else a

/-- The call stacks the tracker builds. -/
inductive Built : CallStack → Prop
  | empty : Built .empty
  | start (entry : Word) (regs : Fin 32 → Word) : Built (.start entry regs)
  | onCall {s : CallStack} (h : Built s) (pc target : Word) (intoProgram : Bool)
      (regs : Fin 32 → Word) (mem : Memory) (log : Option FrameUndo) :
      Built (s.onCall pc target intoProgram regs mem log).1
  | onLrStore {s : CallStack} (h : Built s) (log : Option FrameUndo) :
      Built (s.onLrStore log).1
  | onRuntimeCall {s : CallStack} (h : Built s) (stubPc target : Word)
      (regs : Fin 32 → Word) (log : Option FrameUndo) :
      Built (s.onRuntimeCall stubPc target regs log).1
  | onReturn {s : CallStack} (h : Built s) (pc target : Word) (step : Nat)
      (regs : Fin 32 → Word) (x0Width : Nat) (log : Option FrameUndo) :
      Built (s.onReturn pc target step regs x0Width log).1.1
  | watchWrites {s : CallStack} (h : Built s) (writes : List (Word × Nat)) (step : Nat)
      (mem : Memory) (writer : Word × Word) (log : Option FrameUndo) :
      Built (s.watchWrites writes step mem writer log).1

section Chain

/-- The chain through the records: each activation's `watch` names the nearest caller with
one. -/
def Chained (acts : List Activation) : Prop :=
  ∀ i a, acts[i]? = some a → a.watch = last Activation.HasRecord (acts.take i)

/-- An update that leaves each record and each link alone. -/
def KeepsLinks (f : Activation → Activation) : Prop :=
  ∀ a, (f a).record = a.record ∧ (f a).watch = a.watch

variable {acts : List Activation} {s : CallStack}

theorem last_congr {l l' : List Activation}
    (h : l.map Activation.record = l'.map Activation.record) :
    last Activation.HasRecord l = last Activation.HasRecord l' := by
  induction l using List.reverseRecOn generalizing l' with
  | nil => rw [List.map_eq_nil_iff.mp h.symm]
  | append_singleton l a ih =>
      rw [List.map_append, List.map_singleton] at h
      obtain ⟨l'', last', rfl, hinit, hlast⟩ := List.map_eq_append_iff.mp h.symm
      obtain ⟨b, rest, rfl, hb, hrest⟩ := List.map_eq_cons_iff.mp hlast
      obtain rfl := List.map_eq_nil_iff.mp hrest
      have hlen : l''.length = l.length := by
        rw [← List.length_map (f := Activation.record), hinit, List.length_map]
      rw [last_concat, last_concat, ih hinit.symm, hlen]
      simp only [Activation.HasRecord, hb]

theorem Chained.take (h : Chained acts) (n : Nat) :
    Chained (acts.take n) := by
  intro i a ha
  rw [List.getElem?_take] at ha
  split at ha
  · rename_i hlt
    rw [List.take_take, Nat.min_eq_left (Nat.le_of_lt hlt)]
    exact h i a ha
  · cases ha

/-- Links stay right when every record and link stays what it was. -/
theorem Chained.map {acts' : List Activation} (h : Chained acts)
    (hrecords : acts'.map Activation.record = acts.map Activation.record)
    (hlinks : acts'.map Activation.watch = acts.map Activation.watch) : Chained acts' := by
  intro i a ha
  have hwatch := congrArg (·[i]?) hlinks
  simp only [List.getElem?_map, ha, Option.map_some] at hwatch
  obtain ⟨b, hb, hsame⟩ := Option.map_eq_some_iff.mp hwatch.symm
  rw [← hsame, h i b hb]
  apply last_congr
  rw [List.map_take, List.map_take, hrecords]

/-- The innermost activation's own record is on nobody's chain yet. -/
theorem Chained.modify_last (h : Chained acts)
    {f : Activation → Activation} (hf : ∀ a, (f a).watch = a.watch) :
    Chained (acts.modify (acts.length - 1) f) := by
  intro i a ha
  rw [List.getElem?_modify] at ha
  obtain ⟨b, hb, rfl⟩ := Option.map_eq_some_iff.mp ha
  have hi : i < acts.length := (List.getElem?_eq_some_iff.mp hb).1
  have htake : (acts.modify (acts.length - 1) f).take i = acts.take i := by
    rw [take_modify, List.modify_eq_self (by rw [List.length_take]; omega)]
  rw [htake, ← h i b hb]
  split
  · exact hf b
  · rfl

theorem Chained.append (h : Chained acts) {a : Activation}
    (ha : a.watch = last Activation.HasRecord acts) : Chained (acts ++ [a]) := by
  intro i b hb
  rcases Nat.lt_or_ge i acts.length with hlt | hge
  · rw [List.getElem?_append_left hlt] at hb
    rw [List.take_append_of_le_length (Nat.le_of_lt hlt)]
    exact h i b hb
  · rw [List.getElem?_append_right hge] at hb
    obtain ⟨hzero, hsame⟩ := List.getElem?_eq_some_iff.mp hb
    have hi : i = acts.length := by
      simp only [List.length_singleton] at hzero
      omega
    subst hi
    rw [List.take_left, ← ha, ← hsame]
    simp

theorem Chained.mark (h : Chained s.acts) (record : Word) (flags : BitVec 8)
    (lastRet : Word) (log : Option FrameUndo) :
    Chained (s.mark record flags lastRet log).1.acts := by
  unfold CallStack.mark
  simp only
  split
  · exact h
  · exact h.modify_last fun _ => rfl

theorem Chained.settleCaller (h : Chained s.acts) (pc sp fp : Word)
    (mem : Memory) (log : Option FrameUndo) :
    Chained (s.settleCaller pc sp fp mem log).1.acts := by
  unfold CallStack.settleCaller
  split
  · simp only
    split
    · exact h.mark _ _ _ log
    · exact h
  · exact h

theorem Chained.push (h : Chained s.acts) {a : Activation} (ha : a.watch = 0)
    (x0 : Word) (log : Option FrameUndo) : Chained (s.push a x0 log).1.acts := by
  unfold CallStack.push onTree
  simp only
  split
  · exact h
  · apply h.append
    rcases s.acts.eq_nil_or_concat with hnil | ⟨init, caller, hacts⟩
    · rw [hnil]
      exact ha
    · have hcaller : s.acts[init.length]? = some caller := by
        rw [hacts, List.concat_eq_append, List.getElem?_concat_length]
      have hwatch := h init.length caller hcaller
      rw [hacts, List.concat_eq_append, List.take_left] at hwatch
      rw [hacts, List.concat_eq_append, List.getLast?_concat, last_concat, List.length_append,
        ← hwatch]
      rfl

theorem Chained.unwind (h : Chained s.acts) (k : Nat) (x0 : Word)
    (x0Width : Nat) (log : Option FrameUndo) : Chained (s.unwind k x0 x0Width log).1.acts := by
  rw [(acts_unwind s k x0 x0Width log).1]
  exact h.take _

theorem Chained.onReturn (h : Chained s.acts) (pc target : Word) (step : Nat)
    (regs : Fin 32 → Word) (x0Width : Nat) (log : Option FrameUndo) :
    Chained (s.onReturn pc target step regs x0Width log).1.1.acts := by
  unfold CallStack.onReturn
  split
  · exact h
  · split
    · split
      · exact h.unwind 1 (regs 0) x0Width log
      · split
        · exact h.unwind _ (regs 0) x0Width log
        · exact h
    · exact h

end Chain

section Scan

variable {mem : Memory} {acts : List Activation}

/-- The records of the marked activations before `bound` strictly fall, and none reaches the
last byte of the address space. -/
structure Falls (acts : List Activation) (bound : Nat) : Prop where
  falls : ∀ i j a b, i < j → j < bound → acts[i]? = some a → acts[j]? = some b →
    a.HasRecord → b.HasRecord → b.record.toNat < a.record.toNat
  below : ∀ i a, i < bound → acts[i]? = some a → a.HasRecord → a.record.toNat + 16 < 2 ^ 64

/-- The chain's step against one activation. -/
def takesHits (mem : Memory) (addr : Word) (stop : Nat) (hit : Hit) (a : Activation) :
    Activation :=
  { a with fpHit := (hitAt mem addr stop hit a).1, lrHit := (hitAt mem addr stop hit a).2 }

/-- The chain's step, made only on a record that starts below `stop`. -/
def takesBelow (mem : Memory) (addr : Word) (stop : Nat) (hit : Hit) (a : Activation) :
    Activation :=
  if stop ≤ a.record.toNat then a else takesHits mem addr stop hit a

def link (watch : Nat) : Option Nat := if watch = 0 then none else some (watch - 1)

variable {f : Activation → Activation}

theorem modify_congr_at {k : Nat} {a : Activation} {g : Activation → Activation}
    (ha : acts[k]? = some a) (hfg : f a = g a) : acts.modify k f = acts.modify k g := by
  apply List.ext_getElem?
  intro j
  rw [List.getElem?_modify, List.getElem?_modify]
  by_cases hj : k = j
  · subst hj
    simp [ha, hfg]
  · simp [hj]

theorem keepsLinks_takesBelow (mem : Memory) (addr : Word) (stop : Nat) (hit : Hit) :
    KeepsLinks (takesBelow mem addr stop hit) := by
  intro a
  unfold takesBelow
  split
  · exact ⟨rfl, rfl⟩
  · exact ⟨rfl, rfl⟩

theorem map_modify_of_keeps {α : Type} {g : Activation → α}
    (hf : ∀ a, g (f a) = g a) (k : Nat) : (acts.modify k f).map g = acts.map g := by
  apply List.ext_getElem?
  intro j
  rw [List.getElem?_map, List.getElem?_map, List.getElem?_modify]
  cases acts[j]? with
  | none => rfl
  | some a =>
      simp only [Option.map_eq_map, Option.map_some]
      split
      · rw [hf]
      · rfl

theorem Chained.modify (h : Chained acts) (hf : KeepsLinks f)
    (k : Nat) : Chained (acts.modify k f) :=
  h.map (map_modify_of_keeps (fun a => (hf a).1) k) (map_modify_of_keeps (fun a => (hf a).2) k)

theorem Falls.map {acts' : List Activation} {bound bound' : Nat} (h : Falls acts bound)
    (hle : bound' ≤ bound)
    (hrecords : acts'.map Activation.record = acts.map Activation.record) :
    Falls acts' bound' := by
  have hsame : ∀ (i : Nat) (a : Activation), acts'[i]? = some a →
      ∃ b : Activation, acts[i]? = some b ∧ b.record = a.record := by
    intro i a ha
    have hrecord := congrArg (·[i]?) hrecords
    simp only [List.getElem?_map, ha, Option.map_some] at hrecord
    exact Option.map_eq_some_iff.mp hrecord.symm
  constructor
  · intro i j a b hij hj ha hb hreca hrecb
    obtain ⟨a', ha', hsamea⟩ := hsame i a ha
    obtain ⟨b', hb', hsameb⟩ := hsame j b hb
    rw [← hsamea, ← hsameb]
    refine h.falls i j a' b' hij (Nat.lt_of_lt_of_le hj hle) ha' hb' ?_ ?_
    · rw [Activation.HasRecord, hsamea]
      exact hreca
    · rw [Activation.HasRecord, hsameb]
      exact hrecb
  · intro i a hi ha hreca
    obtain ⟨a', ha', hsamea⟩ := hsame i a ha
    rw [← hsamea]
    refine h.below i a' (Nat.lt_of_lt_of_le hi hle) ha' ?_
    rw [Activation.HasRecord, hsamea]
    exact hreca

/-- The walk from the nearest record before `bound` up the chain does what a scan of the
activations before `bound` does. -/
theorem walkRecords_eq (addr : Word) (stop : Nat) (hit : Hit) {fuel bound : Nat}
    (hfuel : bound ≤ fuel) (hbound : bound ≤ acts.length) (hchain : Chained acts)
    (hfalls : Falls acts bound) (log : Option FrameUndo) :
    (walkRecords mem addr stop hit fuel (link (last Activation.HasRecord (acts.take bound)))
        acts log).1 =
      update Activation.HasRecord (takesBelow mem addr stop hit) bound acts := by
  induction fuel generalizing bound acts log with
  | zero =>
      obtain rfl := Nat.le_zero.mp hfuel
      exact (update_eq_self fun j a hj => absurd hj (Nat.not_lt_zero j)).symm
  | succ fuel ih =>
      rcases hlast : last Activation.HasRecord (acts.take bound) with _ | k
      · have hself :
            update Activation.HasRecord (takesBelow mem addr stop hit) bound acts = acts := by
          apply update_eq_self
          intro j a hj ha hrecord
          have htaken : (acts.take bound)[j]? = some a := by rw [List.getElem?_take, if_pos hj, ha]
          exact absurd hrecord (not_marked_of_last_le (by omega) htaken)
        rw [hself]
        rfl
      · obtain ⟨a, htaken, hrecord⟩ := marked_of_last hlast
        rw [List.getElem?_take] at htaken
        split at htaken
        · rename_i hk
          have hmarked : ∀ j b, k < j → j < bound → acts[j]? = some b → ¬ b.HasRecord := by
            intro j b hj hjb hb
            have hb' : (acts.take bound)[j]? = some b := by rw [List.getElem?_take, if_pos hjb, hb]
            exact not_marked_of_last_le (by omega) hb'
          have hupdate : update Activation.HasRecord (takesBelow mem addr stop hit) bound acts =
              update Activation.HasRecord (takesBelow mem addr stop hit) (k + 1) acts :=
            update_congr hk fun j b hj hjb hb hrec => absurd hrec (hmarked j b hj hjb hb)
          rw [hupdate]
          show (walkRecords mem addr stop hit (fuel + 1) (some k) acts log).1 = _
          unfold walkRecords
          simp only [htaken]
          by_cases hstop : stop ≤ a.record.toNat
          · rw [if_pos hstop]
            refine (update_eq_self fun j b hj hb hrec => if_pos ?_).symm
            rcases Nat.lt_succ_iff_lt_or_eq.mp hj with hlt | rfl
            · have hlower := hfalls.falls j k b a hlt hk hb htaken hrec hrecord
              omega
            · rw [htaken] at hb
              cases hb
              exact hstop
          · rw [if_neg hstop, update_succ htaken hrecord, ← link, hchain k a htaken]
            have hstep : takesBelow mem addr stop hit a = takesHits mem addr stop hit a :=
              if_neg hstop
            have hkeeps := keepsLinks_takesBelow mem addr stop hit
            have hrest : ∀ acts₁ log₁, acts₁ = acts.modify k (takesBelow mem addr stop hit) →
                (walkRecords mem addr stop hit fuel
                  (link (last Activation.HasRecord (acts.take k))) acts₁ log₁).1 =
                update Activation.HasRecord (takesBelow mem addr stop hit) k
                  (acts.modify k (takesBelow mem addr stop hit)) := by
              rintro acts₁ log₁ rfl
              have htake : (acts.modify k (takesBelow mem addr stop hit)).take k =
                  acts.take k := by
                rw [take_modify, List.modify_eq_self (by rw [List.length_take]; omega)]
              rw [← htake]
              apply ih (by omega)
              · rw [List.length_modify]
                omega
              · exact hchain.modify hkeeps k
              · exact hfalls.map (Nat.le_of_lt hk)
                  (map_modify_of_keeps (fun a => (hkeeps a).1) k)
            split
            · exact hrest _ _ (modify_congr_at htaken hstep.symm)
            · rename_i hsame
              apply hrest
              have hid : id a = takesBelow mem addr stop hit a := by
                rw [hstep]
                unfold takesHits
                rw [not_not.mp hsame]
                rfl
              rw [← modify_congr_at htaken hid, List.modify_id]
        · cases htaken

theorem length_takeWhile_spec {α : Type} (p : α → Bool) (l : List α) :
    ∀ x, l[(l.takeWhile p).length]? = some x → p x = false := by
  induction l with
  | nil => simp
  | cons a l ih =>
      intro x hx
      rw [List.takeWhile_cons] at hx
      split at hx
      · exact ih x (by simpa using hx)
      · rename_i hp
        simp only [List.length_nil, List.getElem?_cons_zero, Option.some.injEq] at hx
        rw [← hx]
        simpa using hp

/-- The activations whose record, or the nearest above, reaches past `addr`. -/
def reaching (acts : List Activation) (nearest : Nat) (addr : Word) : Nat :=
  ((acts.take (nearest + 1)).takeWhile fun a =>
    decide (addr.toNat < saturatingAdd (recordFrom acts a) 16)).length

theorem reaching_le (acts : List Activation) (nearest : Nat) (addr : Word) :
    reaching acts nearest addr ≤ nearest + 1 ∧ reaching acts nearest addr ≤ acts.length := by
  have hle : reaching acts nearest addr ≤ (acts.take (nearest + 1)).length :=
    (List.takeWhile_sublist _).length_le
  rw [List.length_take] at hle
  exact ⟨hle.trans (Nat.min_le_left _ _), hle.trans (Nat.min_le_right _ _)⟩

/-- The search lands on the last record among the activations found. -/
theorem lowestReaching_eq (hchain : Chained acts) (nearest : Nat) (addr : Word) :
    lowestReaching acts nearest addr =
      link (last Activation.HasRecord (acts.take (reaching acts nearest addr))) := by
  have hle := (reaching_le acts nearest addr).2
  have hsearch : lowestReaching acts nearest addr =
      if reaching acts nearest addr = 0 then none
      else
        if (acts.getD (reaching acts nearest addr - 1) default).record = 0 then
          link (acts.getD (reaching acts nearest addr - 1) default).watch
        else some (reaching acts nearest addr - 1) := rfl
  rw [hsearch]
  generalize reaching acts nearest addr = r at hle ⊢
  cases r with
  | zero => rfl
  | succ r =>
      have ha := List.getElem?_eq_getElem (Nat.lt_of_succ_le hle)
      rw [if_neg (Nat.succ_ne_zero r), Nat.add_sub_cancel, List.getD_eq_getElem?_getD,
        List.take_add_one, ha, Option.toList_some, Option.getD_some, last_concat,
        List.length_take, Nat.min_eq_left (by omega), ← hchain r _ ha]
      by_cases hrecord : acts[r].record = 0
      · rw [if_pos hrecord, if_neg (not_not.mpr hrecord)]
      · rw [if_neg hrecord, if_pos hrecord]
        rfl

/-- What `recordFrom` gives is the record of an activation at or above, or nothing. -/
theorem recordFrom_spec (hchain : Chained acts) {i : Nat} {a : Activation}
    (ha : acts[i]? = some a) :
    recordFrom acts a = 2 ^ 64 - 1 ∨ ∃ k b, k ≤ i ∧ acts[k]? = some b ∧ b.HasRecord ∧
      recordFrom acts a = b.record.toNat := by
  unfold recordFrom
  by_cases hrecord : a.record = 0
  · rw [if_neg (not_not.mpr hrecord)]
    by_cases hwatch : a.watch = 0
    · exact .inl (if_pos hwatch)
    · right
      rw [if_neg hwatch]
      obtain ⟨k, hk⟩ := Nat.exists_eq_succ_of_ne_zero hwatch
      obtain ⟨b, hb, hmarked⟩ := marked_of_last ((hchain i a ha).symm.trans hk)
      rw [List.getElem?_take] at hb
      split at hb
      · rename_i hlt
        refine ⟨k, b, Nat.le_of_lt hlt, hb, hmarked, ?_⟩
        rw [hk, Nat.succ_sub_one, List.getD_eq_getElem?_getD, hb]
        rfl
      · cases hb
  · exact .inr ⟨i, a, Nat.le_refl i, ha, hrecord, if_pos hrecord⟩

/-- A record the search leaves out ends at or below `addr`. -/
theorem ends_of_reaching_le (hchain : Chained acts) {nearest : Nat}
    (hfalls : Falls acts (nearest + 1)) {addr : Word} {j : Nat} {a : Activation}
    (hj : j < nearest + 1) (hle : reaching acts nearest addr ≤ j) (ha : acts[j]? = some a)
    (hrecord : a.HasRecord) : a.record.toNat + 16 ≤ addr.toNat := by
  have hlen : j < acts.length := (List.getElem?_eq_some_iff.mp ha).1
  have hfirst := List.getElem?_eq_getElem (Nat.lt_of_le_of_lt hle hlen)
  generalize hx : acts[reaching acts nearest addr] = x at hfirst
  have hout : decide (addr.toNat < saturatingAdd (recordFrom acts x) 16) = false := by
    apply length_takeWhile_spec (fun a =>
      decide (addr.toNat < saturatingAdd (recordFrom acts a) 16)) (acts.take (nearest + 1))
    show (acts.take (nearest + 1))[reaching acts nearest addr]? = some x
    rw [List.getElem?_take, if_pos (Nat.lt_of_le_of_lt hle hj), hfirst]
  have hbelow := hfalls.below j a hj ha hrecord
  unfold saturatingAdd at hout
  rw [decide_eq_false_iff_not] at hout
  rcases recordFrom_spec hchain hfirst with hnone | ⟨k, b, hk, hb, hmarked, hfrom⟩
  · omega
  · have hb16 := hfalls.below k b (by omega) hb hmarked
    rcases Nat.lt_or_ge k j with hlt | hge
    · have hlower := hfalls.falls k j b a hlt hj hb ha hmarked hrecord
      omega
    · obtain rfl : k = j := by omega
      rw [ha] at hb
      cases hb
      omega

theorem toOption_ne_some {α : Type} {x : Except EmuError α} {v : α} :
    x.toOption ≠ some v ↔ x ≠ .ok v := by
  cases x with
  | ok w => simp [Except.toOption]
  | error e => simp [Except.toOption]

/-- The chain's step and the plain scan's agree on a record that ends below the top. -/
theorem takesBelow_eq (mem : Memory) (step : Nat) (writer : Word × Word) (write : Word × Nat)
    {a : Activation} (hbelow : a.record.toNat + 16 < 2 ^ 64) :
    takesBelow mem write.1 (saturatingAdd write.1.toNat write.2)
      ⟨step, writer.1, (write.1 - writer.2).toInt⟩ a = overwritten mem step writer a write := by
  obtain ⟨addr, len⟩ := write
  have hlr : (a.record + 8).toNat = a.record.toNat + 8 := by
    rw [BitVec.toNat_add]
    exact Nat.mod_eq_of_lt (by simp; omega)
  have hlands : ∀ slot : Nat, slot + 8 < 2 ^ 64 →
      ((decide (addr.toNat < saturatingAdd slot 8) &&
        decide (slot < saturatingAdd addr.toNat len)) = true ↔
      addr.toNat < slot + 8 ∧ slot < addr.toNat + len) := by
    intro slot hslot
    unfold saturatingAdd
    rw [Bool.and_eq_true, decide_eq_true_iff, decide_eq_true_iff]
    omega
  unfold takesBelow takesHits overwritten hitAt
  simp only [toOption_ne_some, hlr, hlands _ (show a.record.toNat + 8 < 2 ^ 64 by omega),
    hlands _ (show a.record.toNat + 8 + 8 < 2 ^ 64 by omega)]
  split
  · rename_i hstop
    unfold saturatingAdd at hstop
    rw [if_neg (by omega), if_neg (by omega)]
  · rfl

/-- One write along the chain is one write against every caller. -/
theorem watchWrite_eq (mem : Memory) (hchain : Chained acts) {nearest : Nat}
    (hfalls : Falls acts (nearest + 1)) (step : Nat) (writer : Word × Word)
    (log : Option FrameUndo) (write : Word × Nat) :
    (watchWrite step mem writer nearest (acts, log) write).1 =
      update Activation.HasRecord (fun a => overwritten mem step writer a write) (nearest + 1)
        acts := by
  obtain ⟨hle, hlen⟩ := reaching_le acts nearest write.1
  have hfound : Falls acts (reaching acts nearest write.1) := hfalls.map hle rfl
  unfold watchWrite
  rw [lowestReaching_eq hchain, walkRecords_eq _ _ _ hlen hlen hchain hfound]
  have houtside : ∀ j a, reaching acts nearest write.1 ≤ j → j < nearest + 1 →
      acts[j]? = some a → a.HasRecord → overwritten mem step writer a write = a := by
    intro j a hj hbound ha hrecord
    have hends := ends_of_reaching_le hchain hfalls hbound hj ha hrecord
    have hbelow := hfalls.below j a hbound ha hrecord
    have hlr : (a.record + 8).toNat = a.record.toNat + 8 := by
      rw [BitVec.toNat_add]
      exact Nat.mod_eq_of_lt (by simp; omega)
    unfold overwritten
    simp only [hlr]
    rw [if_neg (by omega), if_neg (by omega)]
  rw [update_congr hle houtside]
  apply update_congr_fun
  intro j a hj ha hrecord
  exact takesBelow_eq mem step writer write (hfound.below j a hj ha hrecord)

theorem keepsLinks_overwritten (mem : Memory) (step : Nat) (writer : Word × Word)
    (write : Word × Nat) : KeepsLinks fun a => overwritten mem step writer a write :=
  fun _ => ⟨rfl, rfl⟩

theorem map_update_of_keeps {α : Type} {g : Activation → α}
    (acts : List Activation) (hf : ∀ a, g (f a) = g a) (bound : Nat) :
    (update Activation.HasRecord f bound acts).map g = acts.map g := by
  apply List.ext_getElem?
  intro j
  rw [List.getElem?_map, List.getElem?_map, getElem?_update]
  cases acts[j]? with
  | none => rfl
  | some a =>
      simp only [Option.map_some]
      split
      · rw [hf]
      · rfl

/-- The writes one after another along the chain, caller by caller. -/
theorem watchFold_eq (mem : Memory) (hchain : Chained acts) {nearest : Nat}
    (hfalls : Falls acts (nearest + 1)) (step : Nat) (writer : Word × Word)
    (log : Option FrameUndo) (writes : List (Word × Nat)) :
    (writes.foldl (watchWrite step mem writer nearest) (acts, log)).1 =
      update Activation.HasRecord (fun a => writes.foldl (overwritten mem step writer) a)
        (nearest + 1) acts := by
  induction writes generalizing acts log with
  | nil => exact (update_eq_self fun _ _ _ _ _ => rfl).symm
  | cons write writes ih =>
      have hkeeps := keepsLinks_overwritten mem step writer write
      have hfirst := watchWrite_eq mem hchain hfalls step writer log write
      rw [List.foldl_cons]
      generalize watchWrite step mem writer nearest (acts, log) write = state at hfirst ⊢
      obtain ⟨acts₁, log₁⟩ := state
      simp only at hfirst
      have hrecords := map_update_of_keeps acts (fun a => (hkeeps a).1) (nearest + 1)
      have hlinks := map_update_of_keeps acts (fun a => (hkeeps a).2) (nearest + 1)
      rw [← hfirst] at hrecords hlinks
      rw [ih (hchain.map hrecords hlinks) (hfalls.map (Nat.le_refl _) hrecords) log₁, hfirst,
        update_update fun a => by rw [Activation.HasRecord, (hkeeps a).1]]
      rfl

end Scan

section Built

variable {s : CallStack}

theorem callers_eq_take (s : CallStack) : s.callers = s.acts.take s.callers.length := by
  unfold callers
  split
  · rw [List.take_length]
  · rw [List.dropLast_eq_take, List.length_take, Nat.min_eq_left (Nat.sub_le _ _)]

/-- The search starts from the last caller with a record. -/
theorem nearestRecord_eq (hchain : Chained s.acts) {top : Activation}
    (htop : s.acts.getLast? = some top) :
    s.nearestRecord top = last Activation.HasRecord s.callers := by
  obtain ⟨init, hacts⟩ := List.getLast?_eq_some_iff.mp htop
  have hwatch : top.watch = last Activation.HasRecord init := by
    have htop' : s.acts[init.length]? = some top := by rw [hacts, List.getElem?_concat_length]
    have hlink := hchain init.length top htop'
    rwa [hacts, List.take_left] at hlink
  unfold nearestRecord callers
  rw [hacts, List.dropLast_concat, hwatch]
  by_cases huncounted : 0 < s.uncounted
  · rw [if_pos huncounted, last_concat]
    by_cases hrecord : top.record = 0 <;> simp [huncounted, hrecord]
  · rw [if_neg huncounted, if_neg fun h => huncounted h.1]

theorem falls_of_recordsFall (hfall : s.RecordsFall)
    (hbelow : ∀ a ∈ s.callers, a.HasRecord → a.record.toNat + 16 < 2 ^ 64) :
    Falls s.acts s.callers.length := by
  have hcaller : ∀ (i : Nat) (a : Activation), i < s.callers.length → s.acts[i]? = some a →
      s.callers[i]? = some a := by
    intro i a hi ha
    rw [callers_eq_take, List.getElem?_take, if_pos hi, ha]
  constructor
  · intro i j a b hij hj ha hb hreca hrecb
    unfold RecordsFall at hfall
    rw [List.pairwise_filter, List.pairwise_iff_getElem] at hfall
    obtain ⟨hi', ha'⟩ := List.getElem?_eq_some_iff.mp (hcaller i a (by omega) ha)
    obtain ⟨hj', hb'⟩ := List.getElem?_eq_some_iff.mp (hcaller j b hj hb)
    have hlt := hfall i j hi' hj' hij
    rw [ha', hb'] at hlt
    exact hlt (decide_eq_true hreca) (decide_eq_true hrecb)
  · intro i a hi ha hrecord
    exact hbelow a (List.mem_of_getElem? (hcaller i a hi ha)) hrecord

/-- A write that ends below a record leaves it alone. -/
theorem overwritten_of_le {mem : Memory} {step : Nat} {writer : Word × Word} {a : Activation}
    {write : Word × Nat} (hbelow : a.record.toNat + 16 < 2 ^ 64)
    (hends : saturatingAdd write.1.toNat write.2 ≤ a.record.toNat) :
    overwritten mem step writer a write = a := by
  have hlr : (a.record + 8).toNat = a.record.toNat + 8 := by
    rw [BitVec.toNat_add]
    exact Nat.mod_eq_of_lt (by simp; omega)
  unfold saturatingAdd at hends
  unfold overwritten
  simp only [hlr]
  rw [if_neg (by omega), if_neg (by omega)]

theorem foldl_overwritten_of_le {mem : Memory} {step : Nat} {writer : Word × Word}
    {a : Activation} {writes : List (Word × Nat)} (hbelow : a.record.toNat + 16 < 2 ^ 64)
    (hends : ∀ w ∈ writes, saturatingAdd w.1.toNat w.2 ≤ a.record.toNat) :
    writes.foldl (overwritten mem step writer) a = a := by
  induction writes with
  | nil => rfl
  | cons w writes ih =>
      rw [List.foldl_cons, overwritten_of_le hbelow (hends w List.mem_cons_self)]
      exact ih fun w hw => hends w (List.mem_cons_of_mem _ hw)

theorem linearScan_eq_update (s : CallStack) (writes : List (Word × Nat)) (step : Nat)
    (mem : Memory) (writer : Word × Word) :
    s.linearScan writes step mem writer =
      update Activation.HasRecord (fun a => writes.foldl (overwritten mem step writer) a)
        s.callers.length s.acts := rfl

theorem watchWrites_of_chained (hchain : Chained s.acts) (hfall : s.RecordsFall)
    (hbelow : ∀ a ∈ s.callers, a.HasRecord → a.record.toNat + 16 < 2 ^ 64)
    (writes : List (Word × Nat)) (step : Nat) (mem : Memory) (writer : Word × Word)
    (log : Option FrameUndo) :
    (s.watchWrites writes step mem writer log).1 =
      { s with acts := s.linearScan writes step mem writer } := by
  have hfalls := falls_of_recordsFall hfall hbelow
  have hbeyond : ∀ j (a : Activation), last Activation.HasRecord s.callers ≤ j →
      j < s.callers.length → s.acts[j]? = some a → ¬ a.HasRecord := by
    intro j a hj hbound ha
    refine not_marked_of_last_le hj ?_
    rw [callers_eq_take, List.getElem?_take, if_pos hbound, ha]
  rw [linearScan_eq_update, update_congr (last_le _ s.callers) fun j a hj hbound ha hrecord =>
    absurd hrecord (hbeyond j a hj hbound ha)]
  have hself : (∀ j (a : Activation), j < last Activation.HasRecord s.callers →
      s.acts[j]? = some a → a.HasRecord → writes.foldl (overwritten mem step writer) a = a) →
      s = { s with
        acts := update Activation.HasRecord
          (fun a => writes.foldl (overwritten mem step writer) a)
          (last Activation.HasRecord s.callers) s.acts } := by
    intro hsame
    rw [update_eq_self hsame]
  unfold watchWrites
  rcases htop : s.acts.getLast? with _ | top
  · apply hself
    intro j a _ ha
    rw [List.getLast?_eq_none_iff.mp htop] at ha
    cases ha
  · simp only
    rw [nearestRecord_eq hchain htop]
    rcases hlast : last Activation.HasRecord s.callers with _ | nearest
    · rw [hlast] at hself
      exact hself fun j a hj => absurd hj (Nat.not_lt_zero j)
    · obtain ⟨b, hb, hmarked⟩ := marked_of_last hlast
      rw [callers_eq_take, List.getElem?_take] at hb
      split at hb
      · rename_i hbound
        have hnearest : Falls s.acts (nearest + 1) := hfalls.map hbound rfl
        rw [if_neg (Nat.succ_ne_zero nearest), Nat.add_sub_cancel,
          List.getD_eq_getElem?_getD, hb, Option.getD_some]
        split
        · rename_i hends
          rw [hlast] at hself
          apply hself
          intro j a hj ha hrecord
          have hlow : b.record.toNat ≤ a.record.toNat := by
            rcases Nat.lt_succ_iff_lt_or_eq.mp hj with hlt | rfl
            · exact Nat.le_of_lt (hnearest.falls j nearest a b hlt (Nat.lt_succ_self _) ha hb
                hrecord hmarked)
            · rw [hb] at ha
              cases ha
              exact Nat.le_refl _
          apply foldl_overwritten_of_le (hnearest.below j a hj ha hrecord)
          intro w hw
          have hw' := of_decide_eq_true (List.all_eq_true.mp hends w hw)
          exact hw'.trans hlow
        · have hfold := watchFold_eq mem hchain hnearest step writer log writes
          rw [← hfold]
      · cases hb

/-- A write touches nothing but hits. -/
theorem map_walkRecords {α : Type} {g : Activation → α}
    (hg : ∀ (a : Activation) fpHit lrHit, g { a with fpHit := fpHit, lrHit := lrHit } = g a)
    (mem : Memory) (addr : Word) (stop : Nat) (hit : Hit) (fuel : Nat) (start : Option Nat)
    (acts : List Activation) (log : Option FrameUndo) :
    (walkRecords mem addr stop hit fuel start acts log).1.map g = acts.map g := by
  induction fuel generalizing start acts log with
  | zero => cases start <;> rfl
  | succ fuel ih =>
      cases start with
      | none => rfl
      | some i =>
          unfold walkRecords
          split
          · rfl
          · split
            · rfl
            · rw [ih]
              split
              · exact map_modify_of_keeps (fun a => hg a _ _) i
              · rfl

theorem map_watchWrites {α : Type} {g : Activation → α}
    (hg : ∀ (a : Activation) fpHit lrHit, g { a with fpHit := fpHit, lrHit := lrHit } = g a)
    (s : CallStack) (writes : List (Word × Nat)) (step : Nat) (mem : Memory)
    (writer : Word × Word) (log : Option FrameUndo) :
    (s.watchWrites writes step mem writer log).1.acts.map g = s.acts.map g := by
  have hfold : ∀ (nearest : Nat) (state : List Activation × Option FrameUndo),
      (writes.foldl (watchWrite step mem writer nearest) state).1.map g = state.1.map g := by
    intro nearest
    induction writes with
    | nil => exact fun state => rfl
    | cons w writes ih =>
        intro state
        rw [List.foldl_cons, ih]
        exact map_walkRecords hg mem _ _ _ _ _ _ _
  unfold watchWrites
  split
  · rfl
  · simp only
    split
    · rfl
    · split
      · rfl
      · exact hfold _ _

theorem chained_of_built (h : Built s) : Chained s.acts := by
  induction h with
  | empty => exact fun i a ha => by cases ha
  | start entry regs =>
      intro i a ha
      cases i with
      | zero =>
          cases ha
          rfl
      | succ i => cases ha
  | onCall h pc target intoProgram regs mem log ih =>
      have hsettled := ih.settleCaller pc (regs 31) (regs 29) mem log
      unfold CallStack.onCall
      simp only
      split
      · exact hsettled.push rfl _ _
      · exact hsettled
  | onLrStore h log ih =>
      unfold CallStack.onLrStore
      split
      · split
        · exact ih.mark _ _ _ log
        · exact ih
      · exact ih
  | onRuntimeCall h stubPc target regs log ih => exact ih.push rfl _ log
  | onReturn h pc target step regs x0Width log ih =>
      exact ih.onReturn pc target step regs x0Width log
  | watchWrites h writes step mem writer log ih =>
      exact ih.map (map_watchWrites (fun _ _ _ => rfl) _ writes step mem writer log)
        (map_watchWrites (fun _ _ _ => rfl) _ writes step mem writer log)

/-- On records that strictly fall with depth and end below the last byte of the address
space, the scan along the chain sets exactly the hits a scan of every caller sets. -/
theorem watchWrites_eq_linearScan (hbuilt : Built s) (hfall : s.RecordsFall)
    (hbelow : ∀ a ∈ s.callers, a.HasRecord → a.record.toNat + 16 < 2 ^ 64)
    (writes : List (Word × Nat)) (step : Nat) (mem : Memory) (writer : Word × Word)
    (log : Option FrameUndo) :
    (s.watchWrites writes step mem writer log).1 =
      { s with acts := s.linearScan writes step mem writer } :=
  watchWrites_of_chained (chained_of_built hbuilt) hfall hbelow writes step mem writer log

end Built

section Wrapped

/-- A memory whose frame record at `base` holds the given pair. -/
def recordMemory (base savedFp savedLr : Word) : Memory :=
  ((Memory.new.writeU64 base savedFp).1.writeU64 (base + 8) savedLr).1

/-- A register file with an fp and an sp. -/
def frameRegs (fp sp lr : Word) : Fin 32 → Word := fun i =>
  if i = 29 then fp else if i = 31 then sp else if i = 30 then lr else 0

/-- A function entered with sp at `sp` that called out with its record at `base`. -/
def calledOut (base sp : Word) : CallStack :=
  ((CallStack.start 0x400000 (frameRegs 0 sp 0x1234)).onCall 0x400010 0x400100 true
    (frameRegs base base 0) (recordMemory base 0 0x1234) none).1

theorem built_calledOut (base sp : Word) : Built (calledOut base sp) :=
  .onCall (.start _ _) _ _ _ _ _ _

/-- A record that wraps past the top of the address space has its saved lr at the bottom,
and the scan stops before it. -/
theorem not_watchWrites_wrapped :
    Built (calledOut (-8) (-1)) ∧ (calledOut (-8) (-1)).RecordsFall ∧
      ((calledOut (-8) (-1)).watchWrites [(0, 8)] 5 (recordMemory (-8) 0 0) (0x400100, 0)
          none).1.acts ≠
        (calledOut (-8) (-1)).linearScan [(0, 8)] 5 (recordMemory (-8) 0 0) (0x400100, 0) := by
  refine ⟨built_calledOut _ _, ?_, by decide⟩
  unfold RecordsFall
  decide

/-- A write over the saved lr of the one caller's record. -/
theorem watchWrites_eq_linearScan_overwritten :
    ((calledOut 0x7FFFFFE0 0x80000000).watchWrites [(0x7FFFFFE8, 8)] 5
        (recordMemory 0x7FFFFFE0 0 0) (0x400100, 0) none).1 =
      { calledOut 0x7FFFFFE0 0x80000000 with
        acts := (calledOut 0x7FFFFFE0 0x80000000).linearScan [(0x7FFFFFE8, 8)] 5
          (recordMemory 0x7FFFFFE0 0 0) (0x400100, 0) } :=
  watchWrites_eq_linearScan (built_calledOut _ _) (by unfold RecordsFall; decide)
    (by decide) _ _ _ _ _

end Wrapped

end CallStack

end Playground
