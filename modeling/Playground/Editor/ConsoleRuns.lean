/-
The scrollback against its ledger: what each call keeps of their agreement, and from it
every run that keeps clear of the calls that lose it.
-/
import Playground.Editor.Console

namespace Playground

namespace Console

open CodeUnits

section Marker

variable {m : Bool} {body : CodeUnits}

theorem isMarked_append (body : CodeUnits) : isMarked (consoleTrimMarker ++ body) = true :=
  List.isPrefixOf_iff_prefix.2 (List.prefix_append _ _)

theorem isMarked_withMarker (h : m = false → isMarked body = false) :
    isMarked (withMarker m body) = m := by
  cases m with
  | false => exact h rfl
  | true => exact isMarked_append body

theorem bodyOf_withMarker (h : m = false → isMarked body = false) :
    bodyOf (withMarker m body) = body := by
  rw [bodyOf, isMarked_withMarker h]
  cases m with
  | false => rfl
  | true => exact List.drop_left

theorem isMarked_of_prefix {front back : CodeUnits} (h : isMarked (front ++ back) = false) :
    isMarked front = false := by
  by_contra hmarked
  rw [Bool.not_eq_false, isMarked, List.isPrefixOf_iff_prefix] at hmarked
  have hlong : isMarked (front ++ back) = true :=
    List.isPrefixOf_iff_prefix.2 (hmarked.trans (List.prefix_append front back))
  rw [h] at hlong
  cases hlong

end Marker

section Ledgers

variable {α : Type} {char : α → Char}

/-- Units of whole characters are dropped with the characters. -/
theorem dropUnits_append {n : Nat} {xs ys : List α}
    (hn : (ofChars (xs.map char)).length = n) : dropUnits char n (xs ++ ys) = ys := by
  induction xs generalizing n with
  | nil =>
      rw [List.map_nil, ofChars_nil, List.length_nil] at hn
      subst hn
      cases ys with
      | nil => rfl
      | cons y ys => simp [dropUnits]
  | cons x xs ih =>
      rw [List.map_cons, ofChars_cons, List.length_append] at hn
      have hpos : 0 < (charUnits (char x)).length := by
        obtain ⟨u, heq, -⟩ | ⟨u, v, heq, -⟩ := charUnits_cases (char x)
        all_goals simp [heq]
      rw [List.cons_append, dropUnits, if_neg (by omega)]
      exact ih (by omega)

theorem dropUnits_of_le {n : Nat} {xs : List α} (hn : (ofChars (xs.map char)).length ≤ n) :
    dropUnits char n xs = [] := by
  induction xs generalizing n with
  | nil => rfl
  | cons x xs ih =>
      rw [List.map_cons, ofChars_cons, List.length_append] at hn
      by_cases hzero : n = 0
      · have hpos : 0 < (charUnits (char x)).length := by
          obtain ⟨u, heq, -⟩ | ⟨u, v, heq, -⟩ := charUnits_cases (char x)
          all_goals simp [heq]
        omega
      · rw [dropUnits, if_neg hzero]
        exact ih (by omega)

theorem dropUnits_zero (xs : List α) : dropUnits char 0 xs = xs :=
  @dropUnits_append α char 0 [] xs rfl

@[simp] theorem map_placed (offset : Nat) (cs : List Char) :
    (placed offset cs).map Prod.snd = cs := by
  induction cs generalizing offset with
  | nil => rfl
  | cons c cs ih => rw [placed, List.map_cons, ih]

def logBytes (log : List (Nat × Char)) : Nat := bytes (log.map Prod.snd)

/-- Where a character of a log ends. -/
def tail (w : Nat × Char) : Nat := w.1 + w.2.utf8Size

/-- Each character of a log ends where the next begins, or before, and the last by the
counter. -/
structure Sorted (log : List (Nat × Char)) (counter : Nat) : Prop where
  pairwise : log.Pairwise fun a b => tail a ≤ b.1
  ends : ∀ w ∈ log, tail w ≤ counter

theorem sorted_placed (offset : Nat) (cs : List Char) :
    Sorted (placed offset cs) (offset + bytes cs) ∧ ∀ w ∈ placed offset cs, offset ≤ w.1 := by
  induction cs generalizing offset with
  | nil => exact ⟨⟨List.Pairwise.nil, nofun⟩, nofun⟩
  | cons c cs ih =>
      obtain ⟨hsorted, hfrom⟩ := ih (offset + c.utf8Size)
      rw [bytes_cons, ← Nat.add_assoc]
      refine ⟨⟨List.pairwise_cons.2 ⟨hfrom, hsorted.pairwise⟩, ?_⟩, ?_⟩
      · intro w hw
        obtain rfl | hw := List.mem_cons.1 hw
        · exact Nat.le_add_right _ _
        · exact hsorted.ends w hw
      · intro w hw
        obtain rfl | hw := List.mem_cons.1 hw
        · exact Nat.le_refl _
        · exact Nat.le_trans (Nat.le_add_right _ _) (hfrom w hw)

variable {log : List (Nat × Char)} {counter : Nat}

theorem Sorted.append (hlog : Sorted log counter) (delta : List Char) :
    Sorted (log ++ placed counter delta) (counter + bytes delta) := by
  obtain ⟨hsorted, hfrom⟩ := sorted_placed counter delta
  constructor
  · apply List.pairwise_append.2
    exact ⟨hlog.pairwise, hsorted.pairwise,
      fun a ha b hb => Nat.le_trans (hlog.ends a ha) (hfrom b hb)⟩
  · intro w hw
    obtain hw | hw := List.mem_append.1 hw
    · exact Nat.le_trans (hlog.ends w hw) (Nat.le_add_right _ _)
    · exact hsorted.ends w hw

theorem Sorted.right {front : List (Nat × Char)} (hlog : Sorted (front ++ log) counter) :
    Sorted log counter :=
  ⟨(List.pairwise_append.1 hlog.pairwise).2.1,
    fun w hw => hlog.ends w (List.mem_append_right front hw)⟩

/-- What is written before an offset stands in front of what is not. -/
theorem Sorted.filter_split (hlog : Sorted log counter) (seen : Nat) :
    log.filter (fun w => w.1 < seen) ++ log.filter (fun w => ¬ w.1 < seen) = log := by
  have hpairwise := hlog.pairwise
  clear hlog
  induction log with
  | nil => rfl
  | cons w log ih =>
      rw [List.pairwise_cons] at hpairwise
      by_cases hw : w.1 < seen
      · simpa [hw] using ih hpairwise.2
      · have hall : ∀ v ∈ log, ¬ v.1 < seen := by
          intro v hv
          have hle := hpairwise.1 v hv
          simp only [tail] at hle
          omega
        have hnone : log.filter (fun v => v.1 < seen) = [] := by simpa using hall
        have hkept : log.filter (fun v => ¬ v.1 < seen) = log := by simpa using hall
        rw [List.filter_cons_of_neg (by simpa using hw), hnone,
          List.filter_cons_of_pos (by simpa using hw), hkept, List.nil_append]

end Ledgers

section Invariant

/-- What every call keeps. -/
structure Kept (st : State) : Prop where
  text_eq : ∃ m, st.scrollback.text = withMarker m (ofChars st.ledger.shown) ∧
    (m = false → isMarked (ofChars st.ledger.shown) = false)
  history_eq : st.scrollback.pos.historyBytes = bytes st.ledger.history
  held_eq : st.scrollback.pos.bytesHeld = logBytes st.ledger.log
  base_le : st.scrollback.pos.seenBase + st.scrollback.pos.bytesHeld ≤ st.ledger.counter
  sorted : Sorted st.ledger.log st.ledger.counter

variable {st : State}

theorem shown_bytes (l : Ledger) : bytes l.shown = bytes l.history + logBytes l.log := by
  rw [Ledger.shown, bytes_append, logBytes]

theorem Kept.body_eq (hst : Kept st) : bodyOf st.scrollback.text = ofChars st.ledger.shown := by
  obtain ⟨m, htext, hm⟩ := hst.text_eq
  rw [htext, bodyOf_withMarker hm]

theorem Kept.agrees (hst : Kept st) : Agrees st where
  body_eq := hst.body_eq
  bytes_eq := by
    rw [hst.body_eq, byteLength_ofChars, shown_bytes, hst.history_eq, hst.held_eq]
    exact (Nat.cast_add _ _).symm

theorem initial_kept : Kept initial where
  text_eq := ⟨false, rfl, fun _ => rfl⟩
  history_eq := rfl
  held_eq := rfl
  base_le := by decide
  sorted := ⟨List.Pairwise.nil, nofun⟩

theorem divert_kept (hst : Kept st) (delta : List Char) : Kept (step st (.divert delta)) where
  text_eq := hst.text_eq
  history_eq := hst.history_eq
  held_eq := hst.held_eq
  base_le := by
    have hle := hst.base_le
    simp only [step, Scrollback.step, Ledger.step]
    omega
  sorted := ⟨hst.sorted.pairwise,
    fun w hw => Nat.le_trans (hst.sorted.ends w hw) (Nat.le_add_right _ _)⟩

theorem clear_kept (hst : Kept st) : Kept (step st .clear) where
  text_eq := ⟨false, rfl, fun _ => rfl⟩
  history_eq := rfl
  held_eq := rfl
  base_le := by
    have hle := hst.base_le
    have hheld := hst.held_eq
    simp only [step, Scrollback.step, Scrollback.clear, Ledger.step]
    omega
  sorted := ⟨List.Pairwise.nil, nofun⟩

theorem preserve_kept (hst : Kept st) : Kept (step st .preserve) where
  text_eq := by
    obtain ⟨m, htext, hm⟩ := hst.text_eq
    have hshown : (step st .preserve).ledger.shown = st.ledger.shown := by
      simp [step, Ledger.step, Ledger.shown]
    exact ⟨m, by rw [hshown]; exact htext, by rwa [hshown]⟩
  history_eq := by
    simp only [step, Scrollback.step, Scrollback.preserve, Ledger.step]
    rw [hst.body_eq, byteLength_ofChars]
  held_eq := rfl
  base_le := by
    simp only [step, Scrollback.step, Scrollback.preserve, Ledger.step]
    omega
  sorted := ⟨List.Pairwise.nil, nofun⟩

/-- Nothing but the offset moves when the counter is not behind the scrollback. -/
theorem syncSeen_ahead {s : Scrollback} {seen : Nat}
    (h : s.pos.seenBase + s.pos.bytesHeld ≤ seen) :
    s.syncSeen seen = { s with pos := { s.pos with seenBase := seen - s.pos.bytesHeld } } := by
  rw [Scrollback.syncSeen, if_pos h]

/-- The counter at or past its old place leaves the log alone. -/
theorem filter_ahead {log : List (Nat × Char)} {counter seen : Nat} (hlog : Sorted log counter)
    (h : counter ≤ seen) : log.filter (fun w => w.1 < seen) = log := by
  apply List.filter_eq_self.2
  intro w hw
  have hend := hlog.ends w hw
  have hpos := utf8Size_pos w.2
  simp only [tail] at hend
  simp only [decide_eq_true_eq]
  omega

theorem sync_ahead_kept (hst : Kept st) {seen : Nat} (hseen : st.ledger.counter ≤ seen) :
    Kept (step st (.sync seen)) := by
  have hle := hst.base_le
  have hfilter := filter_ahead hst.sorted hseen
  have hscroll := @syncSeen_ahead st.scrollback seen (by omega)
  have hstep : step st (.sync seen) =
      ⟨{ st.scrollback with
          pos := { st.scrollback.pos with seenBase := seen - st.scrollback.pos.bytesHeld } },
        { st.ledger with counter := seen }⟩ := by
    simp only [step, Scrollback.step, Ledger.step, hscroll, hfilter]
  rw [hstep]
  exact
    { text_eq := hst.text_eq
      history_eq := hst.history_eq
      held_eq := hst.held_eq
      base_le := by
        change (seen : Int) - st.scrollback.pos.bytesHeld + st.scrollback.pos.bytesHeld ≤ seen
        omega
      sorted := ⟨hst.sorted.pairwise, fun w hw => Nat.le_trans (hst.sorted.ends w hw) hseen⟩ }

/-- A cut of the text at the end of a character keeps the characters in front. -/
theorem decodeFirst_ofChars {front back : List Char} {index : Int}
    (hindex : index = bytes front) (hmark : ∀ c ∈ front.head?, c ≠ '\ufeff') :
    decodeFirst index (ofChars (front ++ back)) = ofChars front := by
  have hend : sliceEnd (byteLength (ofChars (front ++ back))) index = bytes front := by
    rw [sliceEnd, if_neg (by omega), hindex, Int.toNat_natCast]
  rw [decodeFirst, hend, takeBytes_ofChars]
  cases front with
  | nil => rfl
  | cons c front =>
      have hc : c ≠ '\ufeff' := hmark c rfl
      obtain ⟨u, heq, hhigh, hlow, -⟩ | ⟨u, v, heq, hhigh, -, -⟩ := charUnits_cases c
      · have hu : u ≠ byteOrderMark := by
          rintro rfl
          apply hc
          rw [charUnits] at heq
          by_cases hsmall : c.toNat < 0x10000
          · rw [if_pos hsmall] at heq
            have hval := congrArg UInt16.toNat (List.head_eq_of_cons_eq heq)
            rw [UInt16.toNat_ofNat', Nat.mod_eq_of_lt hsmall] at hval
            apply Char.ext
            apply UInt32.toNat_inj.1
            exact hval
          · rw [if_neg hsmall] at heq
            simp at heq
        rw [ofChars_cons, heq, List.singleton_append, withoutMark, if_neg hu]
      · have hu : u ≠ byteOrderMark := by
          rintro rfl
          simp [isHigh, byteOrderMark] at hhigh
        rw [ofChars_cons, heq, List.cons_append, withoutMark, if_neg hu]

end Invariant

section Back

variable {st : State} {seen : Nat}

/-- The bytes held from an offset on are as many as the machine wrote from there to its
counter, or are all there are. -/
def Solid (l : Ledger) (seen : Nat) : Prop :=
  logBytes (l.log.filter fun w => ¬ w.1 < seen) = min (logBytes l.log) (l.counter - seen)

instance (l : Ledger) (seen : Nat) : Decidable (Solid l seen) :=
  inferInstanceAs (Decidable (_ = _))

/-- The scrollback's offset is the machine's: the counter was synced since the last clear. -/
def Synced (st : State) : Prop :=
  st.scrollback.pos.seenBase + st.scrollback.pos.bytesHeld = st.ledger.counter

theorem logBytes_split (l : Ledger) (hlog : Sorted l.log l.counter) (seen : Nat) :
    logBytes (l.log.filter fun w => w.1 < seen) +
      logBytes (l.log.filter fun w => ¬ w.1 < seen) = logBytes l.log := by
  rw [logBytes, logBytes, ← bytes_append, ← List.map_append, hlog.filter_split, logBytes]

/-- The bytes the scrollback keeps are those written before the counter. -/
theorem target_eq (hst : Kept st) (hback : seen < st.ledger.counter)
    (hsynced : st.ledger.log = [] ∨ Synced st ∧ Solid st.ledger seen)
    (hbehind : ¬ st.scrollback.pos.seenBase + st.scrollback.pos.bytesHeld ≤ seen) :
    max 0 ((seen : Int) - st.scrollback.pos.seenBase) =
      logBytes (st.ledger.log.filter fun w => w.1 < seen) := by
  have hheld := hst.held_eq
  obtain hnil | ⟨hsync, hsolid⟩ := hsynced
  · rw [hnil] at hheld
    have hzero : st.scrollback.pos.bytesHeld = 0 := hheld
    have hnone : logBytes ([].filter fun w : Nat × Char => w.1 < seen) = 0 := rfl
    rw [hnil, hnone]
    omega
  · have hsplit := logBytes_split st.ledger hst.sorted seen
    rw [Synced] at hsync
    rw [Solid] at hsolid
    omega

theorem sync_back_kept (hst : Kept st) (hback : seen < st.ledger.counter)
    (hwhole : ∀ w ∈ st.ledger.log, w.1 < seen → tail w ≤ seen)
    (hsynced : st.ledger.log = [] ∨ Synced st ∧ Solid st.ledger seen)
    (hmark : ∀ c ∈ (st.ledger.step (.sync seen)).shown.head?, c ≠ '\ufeff') :
    Kept (step st (.sync seen)) := by
  have hsorted : Sorted (st.ledger.log.filter fun w => w.1 < seen) seen := by
    constructor
    · exact hst.sorted.pairwise.filter _
    · intro w hw
      obtain ⟨hmem, hlt⟩ := List.mem_filter.1 hw
      exact hwhole w hmem (by simpa using hlt)
  by_cases hbehind : st.scrollback.pos.seenBase + st.scrollback.pos.bytesHeld ≤ seen
  · -- nothing is held: a synced scrollback would be ahead of the counter
    have hnil : st.ledger.log = [] := by
      obtain hnil | ⟨hsync, -⟩ := hsynced
      · exact hnil
      · rw [Synced] at hsync
        omega
    have hstep : step st (.sync seen) =
        ⟨{ st.scrollback with
            pos := { st.scrollback.pos with
              seenBase := seen - st.scrollback.pos.bytesHeld } },
          { st.ledger with counter := seen }⟩ := by
      simp only [step, Scrollback.step, Ledger.step, syncSeen_ahead hbehind, hnil,
        List.filter_nil]
    rw [hstep]
    exact
      { text_eq := hst.text_eq
        history_eq := hst.history_eq
        held_eq := hst.held_eq
        base_le := by
          change (seen : Int) - st.scrollback.pos.bytesHeld + st.scrollback.pos.bytesHeld ≤ seen
          omega
        sorted := by
          rw [hnil]
          exact ⟨List.Pairwise.nil, nofun⟩ }
  · have htarget := target_eq hst hback hsynced hbehind
    have hshown : st.ledger.shown =
        (st.ledger.step (.sync seen)).shown ++
          (st.ledger.log.filter fun w => ¬ w.1 < seen).map Prod.snd := by
      rw [Ledger.shown, Ledger.shown, List.append_assoc, Ledger.step, ← List.map_append,
        hst.sorted.filter_split]
    have hkept : decodeFirst (byteLength (bodyOf st.scrollback.text) -
        st.scrollback.pos.bytesHeld + max 0 ((seen : Int) - st.scrollback.pos.seenBase))
          (bodyOf st.scrollback.text) = ofChars (st.ledger.step (.sync seen)).shown := by
      rw [hst.body_eq, hshown]
      apply decodeFirst_ofChars _ hmark
      rw [← hshown, byteLength_ofChars, shown_bytes, shown_bytes, htarget, hst.held_eq,
        Nat.cast_add, Nat.cast_add]
      exact add_right_cancel_iff.1 (by simp only [Ledger.step]; ring)
    obtain ⟨m, htext, hm⟩ := hst.text_eq
    have hmarked : isMarked st.scrollback.text = m := by
      rw [htext, isMarked_withMarker hm]
    have hstep : step st (.sync seen) =
        ⟨{ text := withMarker m (ofChars (st.ledger.step (.sync seen)).shown)
           pos := { st.scrollback.pos with
            bytesHeld := max 0 ((seen : Int) - st.scrollback.pos.seenBase)
            seenBase := seen - max 0 ((seen : Int) - st.scrollback.pos.seenBase) } },
          st.ledger.step (.sync seen)⟩ := by
      simp only [step, Scrollback.step, Scrollback.syncSeen, if_neg hbehind, hkept, hmarked]
    rw [hstep]
    exact
      { text_eq := by
          refine ⟨m, rfl, fun hfalse => ?_⟩
          have hlong := hm hfalse
          rw [hshown, ofChars_append] at hlong
          exact isMarked_of_prefix hlong
        history_eq := hst.history_eq
        held_eq := htarget
        base_le := by
          simp only [Ledger.step]
          omega
        sorted := hsorted }

end Back

section Append

variable {st : State}

theorem append_short_kept (hst : Kept st) {delta : List Char}
    (hshort : (bodyOf st.scrollback.text ++ ofChars delta).length ≤ maxConsoleChars)
    (hmark : isMarked st.scrollback.text = false →
      isMarked (bodyOf st.scrollback.text ++ ofChars delta) = false) :
    Kept (step st (.append delta)) := by
  obtain ⟨m, htext, hm⟩ := hst.text_eq
  have hmarked : isMarked st.scrollback.text = m := by rw [htext, isMarked_withMarker hm]
  have hbody := hst.body_eq
  have hshown : st.ledger.history ++
      (st.ledger.log ++ placed st.ledger.counter delta).map Prod.snd =
        st.ledger.shown ++ delta := by
    rw [List.map_append, map_placed, ← List.append_assoc, Ledger.shown]
  have hledger : st.ledger.step (.append delta) =
      { st.ledger with
        log := st.ledger.log ++ placed st.ledger.counter delta
        counter := st.ledger.counter + bytes delta } := by
    have hcut : (ofChars (st.ledger.shown ++ delta)).length - maxConsoleChars = 0 := by
      rw [hbody, ← ofChars_append] at hshort
      omega
    rw [Ledger.step, Ledger.fit, Ledger.shown]
    simp only [hshown, hcut, Nat.zero_sub, dropUnits_zero]
  have happend : st.scrollback.append (ofChars delta) =
      { text := withMarker m (ofChars (st.ledger.shown ++ delta))
        pos := { st.scrollback.pos with
          bytesHeld := st.scrollback.pos.bytesHeld + bytes delta } } := by
    have hhistory := hst.history_eq
    have hmin : min st.scrollback.pos.historyBytes 0 = 0 := by omega
    rw [Scrollback.append, appendBoundedTracked, if_pos hshort, hmarked, hbody,
      ← ofChars_append]
    simp [hmin]
  rw [step, Scrollback.step, happend, hledger]
  exact
    { text_eq := by
        refine ⟨m, congrArg (fun cs => withMarker m (ofChars cs)) hshown.symm, fun hfalse => ?_⟩
        rw [hmarked, hbody, ← ofChars_append, ← hshown] at hmark
        exact hmark hfalse
      history_eq := hst.history_eq
      held_eq := by
        rw [logBytes, List.map_append, map_placed, bytes_append, Nat.cast_add]
        exact congrArg (· + (bytes delta : Int)) hst.held_eq
      base_le := by
        have hle := hst.base_le
        change st.scrollback.pos.seenBase + (st.scrollback.pos.bytesHeld + bytes delta) ≤
          ((st.ledger.counter + bytes delta : Nat) : Int)
        omega
      sorted := hst.sorted.append delta }

/-- A trim takes the oldest characters of the history and then of the log. -/
theorem fit_eq {l : Ledger} {front back : List Char} (hshown : l.shown = front ++ back)
    (hcut : (ofChars l.shown).length - maxConsoleChars = (ofChars front).length) :
    l.fit.shown = back ∧ (∃ gone, l.log = gone ++ l.fit.log) ∧
      bytes l.history = bytes l.fit.history + min (bytes l.history) (bytes front) := by
  obtain ⟨rest, hfront, hrest⟩ | ⟨rest, hhistory, hback⟩ := List.append_eq_append_iff.1
    (show l.history ++ l.log.map Prod.snd = front ++ back from hshown)
  · -- the trim reaches into the log
    obtain ⟨gone, kept, hlog, hgone, hkept⟩ := List.map_eq_append_iff.1 hrest
    have hunits : (ofChars front).length - (ofChars l.history).length =
        (ofChars (gone.map Prod.snd)).length := by
      rw [hgone, hfront, ofChars_append, List.length_append, Nat.add_sub_cancel_left]
    have hhistory : dropUnits id (ofChars front).length l.history = [] := by
      apply dropUnits_of_le
      rw [List.map_id, hfront, ofChars_append, List.length_append]
      exact Nat.le_add_right _ _
    have hfit : l.fit = { l with history := [], log := kept } := by
      rw [Ledger.fit, hcut]
      simp only [hhistory, hunits, hlog, dropUnits_append]
    rw [hfit]
    refine ⟨by rw [Ledger.shown, List.nil_append, hkept], ⟨gone, hlog⟩, ?_⟩
    rw [hfront, bytes_append, bytes_nil]
    omega
  · -- the trim ends in the history
    have hunits : dropUnits id (ofChars front).length l.history = rest := by
      rw [hhistory]
      apply dropUnits_append
      rw [List.map_id]
    have hnone : (ofChars front).length - (ofChars l.history).length = 0 := by
      rw [hhistory, ofChars_append, List.length_append]
      omega
    have hfit : l.fit = { l with history := rest } := by
      rw [Ledger.fit, hcut]
      simp only [hunits, hnone, dropUnits_zero]
    rw [hfit]
    refine ⟨by rw [Ledger.shown, hback], ⟨[], rfl⟩, ?_⟩
    change bytes l.history = bytes rest + min (bytes l.history) (bytes front)
    rw [hhistory, bytes_append]
    omega

theorem append_long_kept (hst : Kept st) {delta : List Char}
    (hlong : maxConsoleChars < (bodyOf st.scrollback.text ++ ofChars delta).length)
    (hpair : splitsPair ((bodyOf st.scrollback.text ++ ofChars delta).length - maxConsoleChars)
      (bodyOf st.scrollback.text ++ ofChars delta) = false) :
    Kept (step st (.append delta)) := by
  have hbody := hst.body_eq
  rw [hbody, ← ofChars_append] at hlong hpair
  obtain ⟨front, back, hsplit, htake, hdrop⟩ := exists_cut (by omega) hpair
  -- the ledger before the trim
  let l : Ledger :=
    { st.ledger with
      log := st.ledger.log ++ placed st.ledger.counter delta
      counter := st.ledger.counter + bytes delta }
  have hshown : l.shown = st.ledger.shown ++ delta := by
    simp only [l, Ledger.shown, List.map_append, map_placed, List.append_assoc]
  have hcut : (ofChars l.shown).length - maxConsoleChars = (ofChars front).length := by
    rw [hshown, ← htake, List.length_take]
    omega
  obtain ⟨hback, ⟨gone, hgone⟩, hhistory⟩ := fit_eq (hshown.trans hsplit) hcut
  have hsorted : Sorted (gone ++ l.fit.log) (st.ledger.counter + bytes delta) := by
    rw [← hgone]
    exact hst.sorted.append delta
  -- the bytes on both sides of the cut
  have hsum : bytes front + (bytes l.fit.history + logBytes l.fit.log) =
      bytes st.ledger.history + logBytes st.ledger.log + bytes delta := by
    rw [← shown_bytes, ← shown_bytes, hback, ← bytes_append, ← bytes_append, hsplit]
  have happend : st.scrollback.append (ofChars delta) =
      { text := withMarker true (ofChars back)
        pos :=
          { historyBytes := st.scrollback.pos.historyBytes -
              min st.scrollback.pos.historyBytes (bytes front)
            bytesHeld := st.scrollback.pos.bytesHeld + (bytes delta -
              (bytes front - min st.scrollback.pos.historyBytes (bytes front)))
            seenBase := st.scrollback.pos.seenBase +
              (bytes front - min st.scrollback.pos.historyBytes (bytes front)) } } := by
    rw [Scrollback.append, appendBoundedTracked, hbody, ← ofChars_append,
      if_neg (Nat.not_le.2 hlong)]
    simp only [htake, hdrop, byteLength_ofChars]
    rfl
  have hheld := hst.held_eq
  have hkept := hst.history_eq
  have hle := hst.base_le
  have hstep : step st (.append delta) =
      ⟨st.scrollback.append (ofChars delta), l.fit⟩ := rfl
  rw [hstep, happend]
  exact
    { text_eq := ⟨true, by rw [hback], nofun⟩
      history_eq := by
        have hsame : bytes l.history = bytes st.ledger.history := rfl
        simp only
        omega
      held_eq := by
        have hsame : bytes l.history = bytes st.ledger.history := rfl
        simp only
        omega
      base_le := by
        have hsame : l.fit.counter = st.ledger.counter + bytes delta := rfl
        simp only [hsame]
        omega
      sorted := hsorted.right }

end Append

section Runs

/-- What a call must keep clear of: a trim between the halves of a surrogate pair, output
that spells the trim marker where none stands, a cut at a byte order mark, and a counter that
moves back over bytes the scrollback's offset is not right for. -/
def Sound (st : State) : Event → Prop
  | .append delta =>
      let next := bodyOf st.scrollback.text ++ ofChars delta
      if next.length ≤ maxConsoleChars then
        isMarked st.scrollback.text = false → isMarked next = false
      else splitsPair (next.length - maxConsoleChars) next = false
  | .sync seen =>
      st.ledger.counter ≤ seen ∨
        (st.ledger.log = [] ∨ Synced st ∧ Solid st.ledger seen) ∧
          ∀ c ∈ (st.ledger.step (.sync seen)).shown.head?, c ≠ '\ufeff'
  | _ => True

/-- The counter moves to the end of a character, where it moves into what is held. -/
def WholeCharacters (st : State) : Event → Prop
  | .sync seen => ∀ w ∈ st.ledger.log, w.1 < seen → tail w ≤ seen
  | _ => True

/-- The states of the runs whose calls all meet a condition. -/
inductive Reached (ok : State → Event → Prop) : State → Prop
  | initial : Reached ok initial
  | step {st : State} (hst : Reached ok st) (event : Event) (hok : ok st event) :
      Reached ok (step st event)

theorem Kept.step {st : State} {event : Event} (hst : Kept st)
    (hwhole : WholeCharacters st event) (hsound : Sound st event) : Kept (step st event) := by
  cases event with
  | append delta =>
      rw [Sound] at hsound
      by_cases hshort : (bodyOf st.scrollback.text ++ ofChars delta).length ≤ maxConsoleChars
      · rw [if_pos hshort] at hsound
        exact append_short_kept hst hshort hsound
      · rw [if_neg hshort] at hsound
        exact append_long_kept hst (Nat.lt_of_not_le hshort) hsound
  | divert delta => exact divert_kept hst delta
  | clear => exact clear_kept hst
  | preserve => exact preserve_kept hst
  | sync seen =>
      by_cases hahead : st.ledger.counter ≤ seen
      · exact sync_ahead_kept hst hahead
      · obtain ⟨hsynced, hmark⟩ := Or.resolve_left hsound hahead
        exact sync_back_kept hst (Nat.lt_of_not_le hahead) hwhole hsynced hmark

theorem Reached.kept {st : State}
    (hst : Reached (fun st event => WholeCharacters st event ∧ Sound st event) st) :
    Kept st := by
  induction hst with
  | initial => exact initial_kept
  | step hst event hok ih => exact ih.step hok.1 hok.2

/-- In every run of sound calls the scrollback shows the history and then the output that
has not been undone, trimmed or cleared. -/
theorem reached_agrees {st : State}
    (hst : Reached (fun st event => WholeCharacters st event ∧ Sound st event) st) :
    Agrees st :=
  hst.kept.agrees

/-- Two letters are printed and one of them is undone. -/
theorem undone_agrees :
    Agrees (step (step (step initial (.append ['a', 'b'])) (.sync 2)) (.sync 1)) := by
  apply reached_agrees
  apply Reached.step _ (.sync 1)
  · exact ⟨by change ∀ w ∈ _, _; decide,
      Or.inr ⟨Or.inr ⟨by rw [Synced]; decide, by decide⟩, by
        change ∀ c ∈ some 'a', c ≠ _
        rintro c ⟨⟩
        decide⟩⟩
  · apply Reached.step _ (.sync 2)
    · exact ⟨by change ∀ w ∈ _, _; decide, Or.inl (by decide)⟩
    · apply Reached.step Reached.initial (.append ['a', 'b'])
      refine ⟨trivial, ?_⟩
      rw [Sound, if_pos (by decide)]
      exact fun _ => by decide

/-- Three bytes in the console, three in the terminal pane and three in the console again,
and a step back. -/
def aroundTheTap : State :=
  step (step (step (step (step initial (.append ['a', 'b', 'c'])) (.divert ['x', 'y', 'z']))
    (.append ['d', 'e', 'f'])) (.sync 9)) (.sync 4)

/-- Stepped back to the fourth byte, the console keeps one letter of three. -/
theorem not_agrees_aroundTheTap :
    ¬ ∀ st : State, Reached WholeCharacters st → Agrees st := by
  intro hagrees
  have hreached : Reached WholeCharacters aroundTheTap := by
    apply Reached.step _ (.sync 4)
    · change ∀ w ∈ _, _
      decide
    apply Reached.step _ (.sync 9)
    · change ∀ w ∈ _, _
      decide
    exact ((Reached.initial.step (.append ['a', 'b', 'c']) trivial).step
      (.divert ['x', 'y', 'z']) trivial).step (.append ['d', 'e', 'f']) trivial
  have hbody := (hagrees aroundTheTap hreached).body_eq
  have hshown : bodyOf aroundTheTap.scrollback.text = [97] := by decide
  have hledger : aroundTheTap.ledger.shown = ['a', 'b', 'c'] := by decide
  rw [hshown, hledger] at hbody
  exact absurd hbody (by decide)

end Runs

end Console

end Playground
