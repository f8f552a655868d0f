/-
What `resolveEquates` guarantees of a program.  Placement is the first round over its labels
and equates, and sixteen more follow: with no equate read early, those that a chain of sixteen
downward uses reaches are resolved, and the first of the others is looked at once more.
-/
import Playground.Frontend.EquateRounds
import Playground.Frontend.LayoutWalk

namespace Playground

open Worklist

/-- The label or equate an item is, at the address placement gives it. -/
def Placing.entry (kind : SectionKind) (p : Placing) : Item → Option Entry
  | .label name _ => some (.label name (kind.addr p.offset))
  | .symbolAssignment name body line => some (.equate ⟨name, body, kind.addr p.offset, line⟩)
  | _ => none

/-- Those of a section's items, as far as they are placed. -/
def itemEntries (kind : SectionKind) : Nat → Placing → List Item → List Entry
  | _, _, [] => []
  | idx, p, item :: items =>
      (p.entry kind item).toList ++
        match Placing.placeChecked kind idx p item with
        | .ok p => itemEntries kind (idx + 1) p items
        | .error _ => []

def sectionEntries : Layout → List Section → List Entry
  | _, [] => []
  | layout, s :: sections =>
      itemEntries s.kind 0 ⟨layout, 0, 0⟩ s.items ++
        match placeSection layout s with
        | .ok layout => sectionEntries layout sections
        | .error _ => []

def Program.equates (program : Program) (host : HostTable) : Equates where
  entries := sectionEntries Layout.empty program.sections
  host := fun name => (host.lookup name).or (stdioSymbols name)

namespace Equates

section Walk

variable {S : Equates} {n : Nat} {l : Layout}

/-- A layout with the first `n` entries placed. -/
structure Walked (S : Equates) (n : Nat) (l : Layout) : Prop where
  records : ∃ done, S.Records 0 n done l.toScope
  left : Left S.equate (S.SettledIn 0) 0 n l.assignments
  labels : ∀ name, l.labelLines name = none → labelled (S.entries.take n) name = none

theorem labelled_take_succ {entry : Entry} (h : S.entries[n]? = some entry) (name : String) :
    labelled (S.entries.take (n + 1)) name =
      (labelled (S.entries.take n) name).or (entry.addrOf name) := by
  rw [labelled, List.take_add_one, h, List.findSome?_append]
  cases hentry : entry.addrOf name with
  | none => simp [labelled, hentry]
  | some addr => simp [labelled, hentry]

theorem placed_zero_of_equate {a : Assignment} (h : S.equate n = some a) :
    S.placed 0 (n + 1) = S.placed 0 n := by
  have hentry : S.entries[n]? = some (.equate a) := by
    unfold equate at h
    split at h
    · next heq =>
        cases h
        exact heq
    · cases h
  funext name
  show labelled (S.entries.take (n + 1)) name = labelled (S.entries.take n) name
  rw [labelled_take_succ hentry]
  exact Option.or_none

theorem walked_empty : S.Walked 0 Layout.empty := by
  refine ⟨⟨[], fun j => ?_, by simp, List.Pairwise.nil, fun name => rfl, fun name _ => rfl⟩,
    .nil 0, fun name _ => rfl⟩
  constructor
  · rintro ⟨v, hmem⟩
    exact absurd hmem List.not_mem_nil
  · rintro ⟨r, v, hbefore, -⟩
    omega

theorem walked_label {name : String} {addr : Word} {lines : String → Option Nat} {line : Nat}
    (h : S.Walked n l) (hentry : S.entries[n]? = some (.label name addr))
    (hfresh : l.labelLines name = none)
    (hlines : lines = Function.update l.labelLines name (some line))
    {l' : Layout} (hlabels : l'.labelLines = lines)
    (hscope : l'.toScope = { l.toScope with
      symbols := Function.update l.symbols name (some addr) })
    (hassignments : l'.assignments = l.assignments) : S.Walked (n + 1) l' := by
  obtain ⟨⟨done, hrecords⟩, hleft, hplaced⟩ := h
  have hnone : S.equate n = none := by
    rw [equate, hentry]
  have hzero : ∀ other, S.placed 0 (n + 1) other =
      (S.placed 0 n other).or (if name = other then some addr else none) :=
    labelled_take_succ hentry
  refine ⟨⟨done, fun j => ?_, hrecords.values, hrecords.ordered, fun other => ?_,
    fun other hnil => ?_⟩, ?_, fun other hother => ?_⟩
  · rw [hrecords.settled j]
    constructor
    · exact fun hbefore => hbefore.mono (.inr ⟨rfl, Nat.le_succ n⟩)
    · rintro ⟨r, v, hbefore, hsettles⟩
      have hne : j ≠ n := by
        rintro rfl
        obtain ⟨a, hequate⟩ := hsettles.equate
        rw [hnone] at hequate
        cases hequate
      exact ⟨r, v, by omega, hsettles⟩
  · rw [hscope]
    exact hrecords.equates other
  · rw [hscope] at hnil ⊢
    rw [hzero, ← hrecords.placed other hnil]
    by_cases hname : name = other
    · subst hname
      have hold : l.symbols name = none :=
        (hrecords.placed name hnil).trans (hplaced name hfresh)
      rw [hold, if_pos rfl]
      exact Function.update_self ..
    · rw [if_neg hname, Option.or_none]
      exact Function.update_of_ne (Ne.symm hname) ..
  · rw [hassignments]
    exact hleft.snoc_skip (.inl (by rw [Nat.zero_add]; exact hnone))
  · rw [hlabels, hlines] at hother
    have hne : other ≠ name := by
      rintro rfl
      rw [Function.update_self] at hother
      cases hother
    rw [Function.update_of_ne hne] at hother
    show S.placed 0 (n + 1) other = none
    rw [hzero, if_neg (Ne.symm hne), Option.or_none]
    exact hplaced other hother

/-- An equate is folded when it settles in the walk, and set aside otherwise. -/
theorem walked_placeEquate {kind : SectionKind} {p p' : Placing} {name : String}
    {body : EquateBody} {line : Nat} (h : S.Walked n p.layout) (hlate : S.ReadsLate)
    (hentry : S.entries[n]? = some (.equate ⟨name, body, kind.addr p.offset, line⟩))
    (hplace : Placing.placeEquate kind p name body line = .ok p') :
    S.Walked (n + 1) p'.layout := by
  obtain ⟨⟨done, hrecords⟩, hleft, hplaced⟩ := h
  have hequate : S.equate n = some ⟨name, body, kind.addr p.offset, line⟩ := by
    rw [equate, hentry]
  have hopen : ¬ S.SettledBefore 0 n n := by
    rintro ⟨r, v, hbefore, -⟩
    omega
  have hturn : ∀ v, tryEvaluateAt ⟨name, body, kind.addr p.offset, line⟩ p.layout.toScope =
      some v ↔ S.Settles 0 n v := fun v => hrecords.tryEvaluateAt_iff hlate hequate hopen
  have hsame := placed_zero_of_equate hequate
  have hlabels : ∀ other, p.layout.labelLines other = none →
      labelled (S.entries.take (n + 1)) other = none := fun other hother =>
    (congrFun hsame other).trans (hplaced other hother)
  unfold Placing.placeEquate at hplace
  split at hplace
  · cases hplace
  · simp only at hplace
    split at hplace
    · next v hvalue =>
        cases hplace
        have hsettles := (hturn v).mp hvalue
        exact ⟨⟨_, hrecords.record hlate hequate hsame hopen hsettles⟩,
          hleft.snoc_skip (.inr (by rw [Nat.zero_add]; exact ⟨v, hsettles⟩)), hlabels⟩
    · next hvalue =>
        cases hplace
        have hnot : ∀ v, ¬ S.Settles 0 n v := by
          intro v hsettles
          rw [(hturn v).mpr hsettles] at hvalue
          cases hvalue
        exact ⟨⟨done, hrecords.advance hsame fun v hv => absurd hv (hnot v)⟩,
          hleft.snoc_keep (by rw [Nat.zero_add]; exact hequate)
            (by rw [Nat.zero_add]; exact not_exists.mpr hnot), hlabels⟩

theorem walked_placeItem {kind : SectionKind} {idx : Nat} {p p' : Placing} {item : Item}
    (h : S.Walked n p.layout) (hlate : S.ReadsLate)
    (hentry : ∀ entry ∈ p.entry kind item, S.entries[n]? = some entry)
    (hplace : Placing.placeItem kind idx p item = .ok p') :
    S.Walked (n + (p.entry kind item).toList.length) p'.layout := by
  cases item with
  | label name line =>
      simp only [Placing.placeItem, Placing.placeLabel] at hplace
      split at hplace
      · cases hplace
      · next hfresh =>
          split at hplace
          · cases hplace
          · cases hplace
            exact walked_label h (hentry _ rfl) hfresh rfl rfl rfl rfl
  | symbolAssignment name body line =>
      exact walked_placeEquate h hlate (hentry _ rfl) hplace
  | bytes bytes =>
      cases hplace
      exact h
  | reserve size =>
      cases hplace
      exact h
  | alignToBytes bytes maxSkip =>
      cases hplace
      exact h
  | instruction tokens line =>
      simp only [Placing.placeItem, Placing.placeInstruction] at hplace
      split at hplace
      · cases hplace
      · cases hplace
        exact ⟨h.records, h.left, h.labels⟩
  | dataExprs exprs width line =>
      cases hplace
      exact h
  | reserveExpr tokens line =>
      obtain ⟨value, -, hplace⟩ := bind_eq_ok hplace
      split at hplace
      · cases hplace
      · cases hplace
        exact ⟨h.records, h.left, h.labels⟩

theorem walked_placeItems {kind : SectionKind} {idx : Nat} {p p' : Placing} {items : List Item}
    {before after : List Entry} (h : S.Walked before.length p.layout) (hlate : S.ReadsLate)
    (hentries : S.entries = before ++ (itemEntries kind idx p items ++ after))
    (hplace : Placing.placeItems kind idx p items = .ok p') :
    S.Walked (before ++ itemEntries kind idx p items).length p'.layout := by
  induction items generalizing idx p before with
  | nil =>
      cases hplace
      simpa [itemEntries] using h
  | cons item items ih =>
      obtain ⟨q, hchecked, hrest⟩ := bind_eq_ok hplace
      have hitem : Placing.placeItem kind idx p item = .ok q := by
        obtain ⟨q', hitem, hwindow⟩ := bind_eq_ok hchecked
        split at hwindow
        · cases hwindow
        · cases hwindow
          exact hitem
      have hunfold : itemEntries kind idx p (item :: items) =
          (p.entry kind item).toList ++ itemEntries kind (idx + 1) q items := by
        rw [itemEntries, hchecked]
      rw [hunfold] at hentries ⊢
      have hstep : S.Walked (before ++ (p.entry kind item).toList).length q.layout := by
        rw [List.length_append]
        refine walked_placeItem h hlate (fun entry hmem => ?_) hitem
        rw [hentries, Option.mem_def.mp hmem]
        simp
      have hnext := ih hstep (by rw [hentries]; simp only [List.append_assoc]) hrest
      rwa [List.append_assoc] at hnext

theorem walked_placeSections {sections : List Section} {l' : Layout} {before : List Entry}
    (h : S.Walked before.length l) (hlate : S.ReadsLate)
    (hentries : S.entries = before ++ sectionEntries l sections)
    (hplace : placeSections l sections = .ok l') : S.Walked S.entries.length l' := by
  induction sections generalizing l before with
  | nil =>
      cases hplace
      rw [sectionEntries, List.append_nil] at hentries
      rwa [hentries]
  | cons s sections ih =>
      obtain ⟨m, hsection, hrest⟩ := bind_eq_ok hplace
      obtain ⟨p, hitems, hlayout⟩ := bind_eq_ok hsection
      have hunfold : sectionEntries l (s :: sections) =
          itemEntries s.kind 0 ⟨l, 0, 0⟩ s.items ++ sectionEntries m sections := by
        rw [sectionEntries, hsection]
      rw [hunfold] at hentries
      have hwalked := walked_placeItems h hlate hentries hitems
      have hm : S.Walked (before ++ itemEntries s.kind 0 ⟨l, 0, 0⟩ s.items).length m := by
        cases hlayout
        split
        · exact ⟨hwalked.records, hwalked.left, hwalked.labels⟩
        · exact hwalked
      exact ih hm (by rw [hentries, List.append_assoc]) hrest

end Walk

section Outcome

variable {S : Equates} {l : Layout}

/-- With the host's symbols in, the first round can start. -/
theorem Walked.seedHost {host : HostTable} (h : S.Walked S.entries.length l)
    (hhost : S.host = fun name => (host.lookup name).or (stdioSymbols name)) :
    ∃ done, S.Records 1 0 done (l.seedHost host).toScope := by
  obtain ⟨⟨done, hrecords⟩, -, -⟩ := h
  refine ⟨done, fun j => ?_, hrecords.values, hrecords.ordered, hrecords.equates,
    fun name hnil => ?_⟩
  · rw [hrecords.settled j]
    constructor
    · exact fun hbefore => hbefore.mono (.inl Nat.zero_lt_one)
    · rintro ⟨r, v, hbefore, hsettles⟩
      obtain ⟨a, hequate⟩ := hsettles.equate
      have hlt := equate_lt hequate
      exact ⟨r, v, by omega, hsettles⟩
  · have hplaced : l.symbols name = labelled S.entries name := by
      have hat := hrecords.placed name hnil
      rwa [placed, if_pos rfl, List.take_length] at hat
    show ((l.symbols name).or (host.lookup name)).or (stdioSymbols name) = S.symbols name
    rw [hplaced, Option.or_assoc, symbols, hhost]

/-- What has settled is recorded with the value it has. -/
theorem Records.mem_equates {r i j : Nat} {done : List (Nat × Word)} {s : Scope} {a : Assignment}
    {v : Word} (h : S.Records r i done s) (hequate : S.equate j = some a)
    (hbefore : S.SettledBefore r i j) (hdenotes : S.Denotes j v) :
    (a.line, v) ∈ s.equates a.name := by
  obtain ⟨w, hmem⟩ := (h.settled j).mpr hbefore
  obtain ⟨q, hsettles⟩ := h.values j w hmem
  obtain ⟨q', hdenotes⟩ := hdenotes
  obtain rfl := hsettles.unique hdenotes
  rw [h.equates]
  refine List.mem_filterMap.mpr ⟨(j, w), hmem, ?_⟩
  simp [hequate]

/-- When all above `k` have settled before the round, its turn is the start of the round. -/
theorem Records.advanceTo {r k : Nat} {done : List (Nat × Word)} {s : Scope}
    (h : S.Records (r + 1) 0 done s)
    (hsettled : ∀ j b, j < k → S.equate j = some b → S.SettledIn r j) :
    S.Records (r + 1) k done s := by
  induction k with
  | zero => exact h
  | succ k ih =>
      have hat := ih fun j b hj => hsettled j b (Nat.lt_succ_of_lt hj)
      refine hat.advance ((placed_succ r _).trans (placed_succ r _).symm) fun v hv => ?_
      obtain ⟨b, hequate⟩ := hv.equate
      obtain ⟨u, hu⟩ := hsettled k b (Nat.lt_succ_self k) hequate
      exact ⟨r, u, .inl (Nat.lt_succ_self r), hu⟩

/-- The first equate that a chain of sixteen downward uses does not settle, if there is one,
has no value, or stands on a line with one that has none and needs more than one use more. -/
def Shallow (S : Equates) : Prop :=
  ∀ i a, S.equate i = some a → ¬ S.SettledIn 16 i →
    (∀ j b, j < i → S.equate j = some b → S.SettledIn 16 j) →
    ¬ S.SettledIn 17 i ∧ ∃ k c, S.equate k = some c ∧ c.line = a.line ∧ ¬ ∃ v, S.Denotes k v

/-- Resolution is complete and never silent: equates with no cycle and no body without a value
all get theirs, success leaves nothing pending, and an equate that is a label too or has no
value is an error, at the line of one of that kind. -/
structure Resolves (S : Equates) (l : Layout) : Prop where
  complete : (∀ i a, S.equate i = some a → l.labelLines a.name = none) → S.Acyclic →
    S.Defined → S.Evaluable → ∃ l', resolveEquates l = .ok l' ∧
      ∀ i a, S.equate i = some a → ∃ v, S.Denotes i v ∧ (a.line, v) ∈ l'.equates a.name
  settled : ∀ l', resolveEquates l = .ok l' → l'.assignments = []
  fails : ∀ i a, S.equate i = some a → (¬ ∃ v, S.Denotes i v) → ∃ e, resolveEquates l = .error e
  blames : ∀ e, resolveEquates l = .error e → ∃ i a, S.equate i = some a ∧
    e.line = some a.line ∧ (l.labelLines a.name ≠ none ∨ ¬ ∃ v, S.Denotes i v)

/-- What the rounds come to, with no equate that is a label: every equate resolved to its
value, or a first one that is open after sixteen rounds and is evaluated once more. -/
theorem resolveEquates_outcome (hlate : S.ReadsLate)
    (hfree : LabelFree l.labelLines l.assignments) {done : List (Nat × Word)}
    (hrecords : S.Records 1 0 done l.toScope)
    (hleft : Left S.equate (S.SettledIn 0) 0 S.entries.length l.assignments) :
    (∃ l', resolveEquates l = .ok l' ∧ l'.assignments = [] ∧
      ∀ i a, S.equate i = some a → S.SettledIn 16 i ∧
        ∀ v, S.Denotes i v → (a.line, v) ∈ l'.equates a.name) ∨
    ∃ i a, S.equate i = some a ∧ ¬ S.SettledIn 16 i ∧
      (∀ j b, j < i → S.equate j = some b → S.SettledIn 16 j) ∧
      (S.SettledIn 17 i → ∃ l', resolveEquates l = .ok l' ∧ l'.assignments ≠ []) ∧
      (¬ S.SettledIn 17 i → ∃ e, resolveEquates l = .error e ∧ e.line = some a.line) := by
  obtain ⟨hleft', done', hrecords'⟩ := passes_records hlate hrecords hleft maxRounds
  rcases hpasses : passes Scope.attempt maxRounds (l.toScope, l.assignments) with ⟨s, left⟩
  rw [hpasses] at hleft' hrecords'
  have hresult := resolveEquates_of_labelFree hfree hpasses
  cases left with
  | nil =>
      refine .inl ⟨_, hresult, rfl, fun i a hequate => ?_⟩
      have hlt : i < 0 + S.entries.length := by
        rw [Nat.zero_add]
        exact equate_lt hequate
      obtain ⟨u, hu⟩ : S.SettledIn 16 i := hleft'.done_of_nil (Nat.zero_le i) hlt hequate
      exact ⟨⟨u, hu⟩, fun v hv =>
        hrecords'.mem_equates hequate ⟨16, u, .inl (by decide), hu⟩ hv⟩
  | cons a rest =>
      obtain ⟨k, -, hequate, hopen, hfirst⟩ := hleft'.first_of_cons
      have habove : ∀ j b, j < k → S.equate j = some b → S.SettledIn 16 j := fun j b hj hb =>
        hfirst j b (Nat.zero_le j) hj hb
      have hat : S.Records 17 k done' s := hrecords'.advanceTo habove
      have hbefore : ¬ S.SettledBefore 17 k k := by
        rw [settledBefore_iff]
        rintro (⟨q, v, hq, hsettles⟩ | ⟨hlt, -⟩)
        · obtain rfl : q = 16 := by omega
          exact hopen ⟨v, hsettles⟩
        · exact lt_irrefl k hlt
      have hturn : ∀ v, tryEvaluateAt a s = some v ↔ S.Settles 17 k v := fun v =>
        hat.tryEvaluateAt_iff hlate hequate hbefore
      refine .inr ⟨k, a, hequate, hopen, habove, fun ⟨v, hv⟩ => ?_, fun hnot => ?_⟩
      · have hvalue := (hturn v).mpr hv
        cases heval : a.evaluateAt s with
        | error e => simp [tryEvaluateAt, heval, Except.toOption] at hvalue
        | ok u =>
            simp only [heval] at hresult
            exact ⟨_, hresult, List.cons_ne_nil a rest⟩
      · cases heval : a.evaluateAt s with
        | error e =>
            simp only [heval] at hresult
            exact ⟨e, hresult, names_evaluateAt a s e heval⟩
        | ok u =>
            have hvalue : tryEvaluateAt a s = some u := by
              simp [tryEvaluateAt, heval, Except.toOption]
            exact absurd ⟨u, (hturn u).mp hvalue⟩ hnot

end Outcome

section Programs

variable {program : Program} {host : HostTable} {layout : Layout}

theorem walked_collectAndPlace (hplace : collectAndPlace program = .ok layout)
    (hlate : (program.equates host).ReadsLate) :
    (program.equates host).Walked (program.equates host).entries.length layout :=
  have hempty : (program.equates host).Walked ([] : List Entry).length Layout.empty :=
    walked_empty
  walked_placeSections hempty hlate rfl hplace

/-- Once placed, an equate that is a label too is still pending. -/
theorem Walked.labelFree_iff {S : Equates} (h : S.Walked S.entries.length layout)
    (hplace : collectAndPlace program = .ok layout) :
    LabelFree layout.labelLines layout.assignments ↔
      ∀ i a, S.equate i = some a → layout.labelLines a.name = none := by
  have hcoherent := (lays_placeSections hplace program.kinds_nodup).2.2.2.1 coherent_empty
  constructor
  · intro hfree i a hequate
    by_cases hsettled : S.SettledIn 0 i
    · obtain ⟨v, hv⟩ := hsettled
      obtain ⟨done, hrecords⟩ := h.records
      have hmem := hrecords.mem_equates hequate
        ⟨0, v, .inr ⟨rfl, equate_lt hequate⟩, hv⟩ ⟨0, hv⟩
      by_contra hlabel
      obtain ⟨line, hline⟩ := Option.ne_none_iff_exists'.mp hlabel
      rw [(hcoherent.label a.name line hline).1] at hmem
      exact absurd hmem List.not_mem_nil
    · exact hfree a (h.left.mem_of_not_done (Nat.zero_le i)
        (by rw [Nat.zero_add]; exact equate_lt hequate) hequate hsettled)
  · intro hfree a ha
    obtain ⟨i, hequate⟩ := h.left.exists_task ha
    exact hfree i a hequate

/-- `b` stands above the definitions of `a` and takes the first, `c` takes the last. -/
def equateUses : Program where
  sections := [⟨.text, [
    .symbolAssignment "b" ⟨"a", by decide⟩ 1, .symbolAssignment "a" ⟨"1", by decide⟩ 2,
    .symbolAssignment "a" ⟨"2", by decide⟩ 3, .symbolAssignment "c" ⟨"b + a", by decide⟩ 4]⟩]
  globals := []
  expandedSource := ""
  kinds_nodup := by decide

/-- An equate of the program at the start of its text. -/
def usesAt (name : String) (body : EquateBody) (line : Nat) : Assignment :=
  ⟨name, body, SectionKind.text.addr 0, line⟩

theorem entries_equateUses : (equateUses.equates ⟨[]⟩).entries =
    [.equate (usesAt "b" ⟨"a", by decide⟩ 1), .equate (usesAt "a" ⟨"1", by decide⟩ 2),
      .equate (usesAt "a" ⟨"2", by decide⟩ 3), .equate (usesAt "c" ⟨"b + a", by decide⟩ 4)] := by
  decide

theorem equate_equateUses {i : Nat} {a : Assignment}
    (h : (equateUses.equates ⟨[]⟩).equate i = some a) :
    (i = 0 ∧ a = usesAt "b" ⟨"a", by decide⟩ 1) ∨ (i = 1 ∧ a = usesAt "a" ⟨"1", by decide⟩ 2) ∨
      (i = 2 ∧ a = usesAt "a" ⟨"2", by decide⟩ 3) ∨
      (i = 3 ∧ a = usesAt "c" ⟨"b + a", by decide⟩ 4) := by
  rw [equate, entries_equateUses] at h
  rcases i with _ | _ | _ | _ | i
  · cases h
    exact .inl ⟨rfl, rfl⟩
  · cases h
    exact .inr (.inl ⟨rfl, rfl⟩)
  · cases h
    exact .inr (.inr (.inl ⟨rfl, rfl⟩))
  · cases h
    exact .inr (.inr (.inr ⟨rfl, rfl⟩))
  · cases h

/-- `b` uses the first `a`; `c` uses `b` and the second. -/
theorem takes_equateUses {i j : Nat} {a b : Assignment} {name : String}
    (hequate : (equateUses.equates ⟨[]⟩).equate i = some a) (hname : name ∈ a.mentions)
    (h : (equateUses.equates ⟨[]⟩).Takes i a name j b) :
    (i = 0 ∧ name = "a" ∧ j = 1) ∨ (i = 3 ∧ name = "b" ∧ j = 0) ∨
      (i = 3 ∧ name = "a" ∧ j = 2) := by
  have hfirst : (equateUses.equates ⟨[]⟩).equate 1 = some (usesAt "a" ⟨"1", by decide⟩ 2) := by
    decide
  have hsecond : (equateUses.equates ⟨[]⟩).equate 2 = some (usesAt "a" ⟨"2", by decide⟩ 3) := by
    decide
  obtain ⟨⟨hne, hj, hdefines⟩, htaken⟩ := h
  rcases equate_equateUses hequate with ⟨rfl, rfl⟩ | ⟨rfl, rfl⟩ | ⟨rfl, rfl⟩ | ⟨rfl, rfl⟩
  · have hmentions : (usesAt "b" ⟨"a", by decide⟩ 1).mentions = ["a"] := by decide
    rw [hmentions, List.mem_singleton] at hname
    subst hname
    rcases equate_equateUses hj with ⟨rfl, rfl⟩ | ⟨rfl, rfl⟩ | ⟨rfl, rfl⟩ | ⟨rfl, rfl⟩
    · exact absurd rfl hne
    · exact .inl ⟨rfl, rfl, rfl⟩
    · -- the second `a` is neither above `b` nor the first
      rcases htaken with ⟨habove, -⟩ | hnone
      · exact absurd habove (by decide)
      · have hlow := (hnone 1 _ ⟨by decide, hfirst, rfl⟩).2
        exact absurd hlow (by decide)
    · exact absurd hdefines (by decide)
  · have hmentions : (usesAt "a" ⟨"1", by decide⟩ 2).mentions = [] := by decide
    rw [hmentions] at hname
    exact absurd hname List.not_mem_nil
  · have hmentions : (usesAt "a" ⟨"2", by decide⟩ 3).mentions = [] := by decide
    rw [hmentions] at hname
    exact absurd hname List.not_mem_nil
  · have hmentions : (usesAt "c" ⟨"b + a", by decide⟩ 4).mentions = ["b", "a"] := by decide
    rw [hmentions, List.mem_pair] at hname
    rcases equate_equateUses hj with ⟨rfl, rfl⟩ | ⟨rfl, rfl⟩ | ⟨rfl, rfl⟩ | ⟨rfl, rfl⟩
    · exact .inr (.inl ⟨rfl, hdefines.symm, rfl⟩)
    · -- the first `a` is not the nearest above
      have hnamed : name = "a" := hdefines.symm
      rcases htaken with ⟨-, hnear⟩ | hnone
      · have hlow := hnear 2 _ ⟨by decide, hsecond, hdefines⟩ (by decide)
        exact absurd hlow (by decide)
      · exact absurd (hnone 1 _ ⟨by decide, hfirst, hdefines⟩).1 (by decide)
    · exact .inr (.inr ⟨rfl, hdefines.symm, rfl⟩)
    · exact absurd rfl hne

/-- The second round settles `b` and then `c`. -/
theorem settles_equateUses :
    (equateUses.equates ⟨[]⟩).Settles 1 0 1 ∧ (equateUses.equates ⟨[]⟩).Settles 0 1 1 ∧
      (equateUses.equates ⟨[]⟩).Settles 0 2 2 ∧ (equateUses.equates ⟨[]⟩).Settles 1 3 3 := by
  have hnumber : ∀ i a v, (equateUses.equates ⟨[]⟩).equate i = some a → a.mentions = [] →
      a.evaluateWith (fun _ => some 0) = .ok v → (equateUses.equates ⟨[]⟩).Settles 0 i v := by
    intro i a v hequate hmentions heval
    have hnone : ∀ name ∈ a.mentions, False := by simp [hmentions]
    exact .intro (fun _ => 0) (fun _ => 0) hequate (fun name h => (hnone name h).elim)
      (fun name h => (hnone name h).elim) (fun name h => (hnone name h).elim) heval
  have hfirst := hnumber 1 (usesAt "a" ⟨"1", by decide⟩ 2) 1 (by decide) (by decide) (by decide)
  have hsecond := hnumber 2 (usesAt "a" ⟨"2", by decide⟩ 3) 2 (by decide) (by decide) (by decide)
  have hb : (equateUses.equates ⟨[]⟩).equate 0 = some (usesAt "b" ⟨"a", by decide⟩ 1) := by decide
  have hc : (equateUses.equates ⟨[]⟩).equate 3 = some (usesAt "c" ⟨"b + a", by decide⟩ 4) := by
    decide
  have hbMentions : (usesAt "b" ⟨"a", by decide⟩ 1).mentions = ["a"] := by decide
  have hcMentions : (usesAt "c" ⟨"b + a", by decide⟩ 4).mentions = ["b", "a"] := by decide
  -- every name is an equate elsewhere
  have hother : ∀ i name, i = 0 ∨ i = 3 → name = "a" ∨ i = 3 ∧ name = "b" →
      ∃ k c, (equateUses.equates ⟨[]⟩).Other i name k c := by
    rintro i name hi (rfl | ⟨rfl, rfl⟩)
    · exact ⟨1, usesAt "a" ⟨"1", by decide⟩ 2, by omega, by decide, rfl⟩
    · exact ⟨0, usesAt "b" ⟨"a", by decide⟩ 1, by decide, by decide, rfl⟩
  have hbSettles : (equateUses.equates ⟨[]⟩).Settles 1 0 1 := by
    refine .intro (fun _ => 1) (fun _ => 0) hb (fun name hname j b htake => ?_)
      (fun _ _ _ _ _ => .inl Nat.zero_lt_one) (fun name hname hnone => ?_) (by decide)
    · rcases takes_equateUses hb hname htake with ⟨-, -, rfl⟩ | ⟨h, -⟩ | ⟨h, -⟩
      · exact hfirst
      · cases h
      · cases h
    · rw [hbMentions, List.mem_singleton] at hname
      obtain ⟨k, c, hk⟩ := hother 0 name (.inl rfl) (.inl hname)
      obtain ⟨j, b, htake⟩ := exists_takes (a := usesAt "b" ⟨"a", by decide⟩ 1) hk
      exact absurd htake (hnone j b)
  refine ⟨hbSettles, hfirst, hsecond, .intro (fun name => if name = "a" then 2 else 1)
    (fun name => if name = "a" then 0 else 1) hc (fun name hname j b htake => ?_)
    (fun name hname j b htake => ?_) (fun name hname hnone => ?_) (by decide)⟩
  · rcases takes_equateUses hc hname htake with ⟨h, -⟩ | ⟨-, rfl, rfl⟩ | ⟨-, rfl, rfl⟩
    · cases h
    · exact hbSettles
    · exact hsecond
  · rcases takes_equateUses hc hname htake with ⟨h, -⟩ | ⟨-, rfl, rfl⟩ | ⟨-, rfl, rfl⟩
    · cases h
    · exact .inr ⟨rfl, by decide⟩
    · exact .inl (by decide)
  · rw [hcMentions, List.mem_pair] at hname
    obtain ⟨k, c, hk⟩ := hother 3 name (.inr rfl)
      (hname.symm.imp id fun h => ⟨rfl, h⟩)
    obtain ⟨j, b, htake⟩ := exists_takes (a := usesAt "c" ⟨"b + a", by decide⟩ 4) hk
    exact absurd htake (hnone j b)

theorem readsLate_equateUses : (equateUses.equates ⟨[]⟩).ReadsLate := by
  obtain ⟨-, hfirst, hsecond, -⟩ := settles_equateUses
  have hlabelled : ∀ n name, labelled ((equateUses.equates ⟨[]⟩).entries.take n) name = none := by
    intro n name
    refine List.findSome?_eq_none_iff.mpr fun entry hentry => ?_
    have hall : ∀ entry ∈ (equateUses.equates ⟨[]⟩).entries, entry.addrOf name = none := by
      rw [entries_equateUses]
      simp [Entry.addrOf]
    exact hall entry (List.mem_of_mem_take hentry)
  have hplaced : ∀ r i name, stdioSymbols name = none →
      ¬ ((equateUses.equates ⟨[]⟩).placed r i name).isSome := by
    intro r i name hstdio hsome
    unfold placed at hsome
    split at hsome
    · simp [hlabelled] at hsome
    · have hall := hlabelled (equateUses.equates ⟨[]⟩).entries.length name
      rw [List.take_length] at hall
      rw [symbols, hall, Option.none_or] at hsome
      simp [Program.equates, HostTable.lookup, hstdio] at hsome
  refine ⟨fun r i a hequate hknown name hname j b htake => ?_, ?_⟩
  · rcases takes_equateUses hequate hname htake with
      ⟨rfl, rfl, rfl⟩ | ⟨rfl, rfl, rfl⟩ | ⟨rfl, rfl, rfl⟩
    · -- no definition of `a` is above `b`, so none is known in the walk
      obtain ⟨k, c, -, r', v, hbefore, -⟩ :=
        (hknown "a" hname).resolve_left (hplaced r 0 "a" (by decide))
      exact ⟨0, 1, by omega, hfirst⟩
    · obtain ⟨k, c, ⟨hne, hk, hdefines⟩, hsettled⟩ :=
        (hknown "b" hname).resolve_left (hplaced r 3 "b" (by decide))
      rcases equate_equateUses hk with ⟨rfl, rfl⟩ | ⟨rfl, rfl⟩ | ⟨rfl, rfl⟩ | ⟨rfl, rfl⟩
      · exact hsettled
      · exact absurd hdefines (by decide)
      · exact absurd hdefines (by decide)
      · exact absurd hdefines (by decide)
    · exact ⟨0, 2, by omega, hsecond⟩
  · intro j k b c hj hk hname hline hlt
    rcases equate_equateUses hj with ⟨rfl, rfl⟩ | ⟨rfl, rfl⟩ | ⟨rfl, rfl⟩ | ⟨rfl, rfl⟩ <;>
      rcases equate_equateUses hk with ⟨rfl, rfl⟩ | ⟨rfl, rfl⟩ | ⟨rfl, rfl⟩ | ⟨rfl, rfl⟩ <;>
        first | omega | exact absurd hline (by decide)

theorem shallow_equateUses : (equateUses.equates ⟨[]⟩).Shallow := by
  obtain ⟨hb, hfirst, hsecond, hc⟩ := settles_equateUses
  intro i a hequate hopen _
  rcases equate_equateUses hequate with ⟨rfl, -⟩ | ⟨rfl, -⟩ | ⟨rfl, -⟩ | ⟨rfl, -⟩
  · exact absurd ⟨1, hb.mono (by decide)⟩ hopen
  · exact absurd ⟨1, hfirst.mono (by decide)⟩ hopen
  · exact absurd ⟨2, hsecond.mono (by decide)⟩ hopen
  · exact absurd ⟨3, hc.mono (by decide)⟩ hopen

/-- `a = b`, `b = c` and so on to `q = r`, then `r = 1`: each equate names the next. -/
def equateChain : Program where
  sections := [⟨.text, [
    .symbolAssignment "a" ⟨"b", by decide⟩ 1, .symbolAssignment "b" ⟨"c", by decide⟩ 2,
    .symbolAssignment "c" ⟨"d", by decide⟩ 3, .symbolAssignment "d" ⟨"e", by decide⟩ 4,
    .symbolAssignment "e" ⟨"f", by decide⟩ 5, .symbolAssignment "f" ⟨"g", by decide⟩ 6,
    .symbolAssignment "g" ⟨"h", by decide⟩ 7, .symbolAssignment "h" ⟨"i", by decide⟩ 8,
    .symbolAssignment "i" ⟨"j", by decide⟩ 9, .symbolAssignment "j" ⟨"k", by decide⟩ 10,
    .symbolAssignment "k" ⟨"l", by decide⟩ 11, .symbolAssignment "l" ⟨"m", by decide⟩ 12,
    .symbolAssignment "m" ⟨"n", by decide⟩ 13, .symbolAssignment "n" ⟨"o", by decide⟩ 14,
    .symbolAssignment "o" ⟨"p", by decide⟩ 15, .symbolAssignment "p" ⟨"q", by decide⟩ 16,
    .symbolAssignment "q" ⟨"r", by decide⟩ 17, .symbolAssignment "r" ⟨"1", by decide⟩ 18]⟩]
  globals := []
  expandedSource := ""
  kinds_nodup := by decide

-- `d = a` is folded against the line above, before `a = k` has a value
example : (resolveLayout { equateUses with
    sections := [⟨.text, [
      .symbolAssignment "a" ⟨"0", by decide⟩ 1, .symbolAssignment "a" ⟨"k", by decide⟩ 2,
      .symbolAssignment "d" ⟨"a", by decide⟩ 3, .symbolAssignment "x" ⟨"8 / d", by decide⟩ 4,
      .symbolAssignment "k" ⟨"5", by decide⟩ 5]⟩]
    kinds_nodup := by decide } ⟨[]⟩).map (fun _ => ()) =
    .error (.parseError 4 "division by zero in expression") := by decide

end Programs

end Equates

end Playground
