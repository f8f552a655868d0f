/-
What every order of the breakpoint calls keeps: the dots, the lines at each key and the
CPU's set agree from a re-key to the next edit, and an edit leaves the CPU's set alone.
-/
import Playground.Editor.Breakpoints

namespace Playground

namespace Breakpoints

@[simp] theorem Lines.mem_add {lines : Lines} {line l : Nat} :
    l ∈ lines.add line ↔ l ∈ lines ∨ l = line := by
  by_cases hline : line ∈ lines
  · constructor
    · simp only [Lines.add, if_pos hline]
      exact Or.inl
    · simp only [Lines.add, if_pos hline]
      rintro (hl | rfl)
      · exact hl
      · exact hline
  · simp [Lines.add, hline]

@[simp] theorem Lines.mem_delete {lines : Lines} {line l : Nat} :
    l ∈ lines.delete line ↔ l ∈ lines ∧ l ≠ line := by
  simp [Lines.delete]

theorem Lines.mem_foldl_add {more lines : Lines} {l : Nat} :
    l ∈ more.foldl Lines.add lines ↔ l ∈ lines ∨ l ∈ more := by
  induction more generalizing lines with
  | nil => simp
  | cons line more ih =>
      rw [List.foldl_cons, ih, Lines.mem_add, List.mem_cons]
      tauto

@[simp] theorem Lines.mem_renumber {remap : Nat → Option Nat} {lines : Lines} {l : Nat} :
    l ∈ lines.renumber remap ↔ ∃ line ∈ lines, remap line = some l := by
  simp [Lines.renumber, Lines.mem_foldl_add]

/-- A line is among those at an address. -/
def KeyedLines.Holds (keyed : KeyedLines) (addr line : Nat) : Prop :=
  ∃ lines, keyed addr = some lines ∧ line ∈ lines

/-- The three sets agree. -/
structure InStep (st : State) : Prop where
  armed_iff : ∀ addr, addr ∈ st.armed ↔ ∃ lines, st.byAddr addr = some lines
  dots_of_key : ∀ addr lines, st.byAddr addr = some lines →
    lines ≠ [] ∧ ∀ line ∈ lines, line ∈ st.dots
  one_key : ∀ line ∈ st.dots, ∃! addr, st.byAddr.Holds addr line

/-- What edits leave of it: the CPU's set stands as it was, and the lines that are left stand
at addresses of it. -/
structure Drifted (armed : Finset Nat) (st : State) : Prop where
  armed_eq : st.armed = armed
  key_armed : ∀ addr lines, st.byAddr addr = some lines → addr ∈ armed
  dots_of_key : ∀ addr lines, st.byAddr addr = some lines →
    lines ≠ [] ∧ ∀ line ∈ lines, line ∈ st.dots
  some_key : ∀ line ∈ st.dots, ∃ addr, st.byAddr.Holds addr line

/-- Where a run stands between two re-keys. -/
inductive Phase
  | settled
  /-- The lines were renumbered since; the CPU's set is `armed` still. -/
  | moved (armed : Finset Nat)
  /-- A re-key waits for the CPU, and whether a line was clicked meanwhile. -/
  | waiting (toggled : Bool)
  | unknown

section Invariants

variable (emits : List Char → Bool) (codeBase : Nat)

/-- In step, with every keyed line resolving to its key. -/
structure Settled (st : State) : Prop where
  armed_iff : ∀ addr, addr ∈ st.armed ↔ ∃ lines, st.byAddr addr = some lines
  dots_of_key : ∀ addr lines, st.byAddr addr = some lines →
    lines ≠ [] ∧ ∀ line ∈ lines, line ∈ st.dots
  some_key : ∀ line ∈ st.dots, ∃ addr, st.byAddr.Holds addr line
  resolves : ∀ addr line, st.byAddr.Holds addr line →
    st.assembly.place emits codeBase line = some addr

variable {emits codeBase}

theorem Settled.inStep {st : State} (hst : Settled emits codeBase st) : InStep st where
  armed_iff := hst.armed_iff
  dots_of_key := hst.dots_of_key
  one_key line hline := by
    obtain ⟨addr, haddr⟩ := hst.some_key line hline
    refine ⟨addr, haddr, fun other hother => ?_⟩
    have hplace := hst.resolves addr line haddr
    rw [hst.resolves other line hother] at hplace
    exact Option.some.inj hplace

theorem Settled.drifted {st : State} (hst : Settled emits codeBase st) :
    Drifted st.armed st where
  armed_eq := rfl
  key_armed addr lines hlines := (hst.armed_iff addr).2 ⟨lines, hlines⟩
  dots_of_key := hst.dots_of_key
  some_key := hst.some_key

variable (emits codeBase)

/-- While a re-key waits, the CPU's set holds only what was clicked since. -/
def Awaiting (st : State) : Prop :=
  ∀ addr ∈ st.armed, ∃ lines, st.byAddr addr = some lines ∧ lines ≠ [] ∧
    ∀ line ∈ lines, line ∈ st.dots ∧ st.assembly.place emits codeBase line = some addr

def Phase.Fits (st : State) : Phase → Prop
  | .settled => st.waiting = [] ∧ Settled emits codeBase st
  | .moved armed => st.waiting = [] ∧ Drifted armed st
  | .waiting toggled =>
      st.waiting = [st.assembly] ∧ (toggled = false → st.armed = ∅) ∧ Awaiting emits codeBase st
  | .unknown => True

end Invariants

section Toggle

variable {emits : List Char → Bool} {codeBase : Nat} {st : State} {line addr : Nat}

/-- The three things a click does to a line that resolves. -/
theorem toggle_cases (hplace : st.assembly.place emits codeBase line = some addr) :
    (line ∉ st.dots ∧ toggleBreakpoint emits codeBase st line =
      { st with
        dots := st.dots.add line
        byAddr := Function.update st.byAddr addr
          (some (Lines.add ((st.byAddr addr).getD []) line))
        armed := if (st.byAddr addr).getD [] = [] then insert addr st.armed else st.armed }) ∨
    (line ∈ st.dots ∧ Lines.delete ((st.byAddr addr).getD []) line = [] ∧
      toggleBreakpoint emits codeBase st line =
      { st with
        dots := st.dots.delete line
        byAddr := Function.update st.byAddr addr none
        armed := st.armed.erase addr }) ∨
    (line ∈ st.dots ∧ Lines.delete ((st.byAddr addr).getD []) line ≠ [] ∧
      toggleBreakpoint emits codeBase st line =
      { st with
        dots := st.dots.delete line
        byAddr := Function.update st.byAddr addr
          (some (Lines.delete ((st.byAddr addr).getD []) line)) }) := by
  by_cases hdot : line ∈ st.dots
  · by_cases hleft : Lines.delete ((st.byAddr addr).getD []) line = []
    · exact Or.inr (Or.inl ⟨hdot, hleft, by simp [toggleBreakpoint, hplace, hdot, hleft]⟩)
    · exact Or.inr (Or.inr ⟨hdot, hleft, by simp [toggleBreakpoint, hplace, hdot, hleft]⟩)
  · exact Or.inl ⟨hdot, by simp [toggleBreakpoint, hplace, hdot]⟩

theorem toggle_unplaced (hplace : st.assembly.place emits codeBase line = none)
    (hloaded : st.loaded = true) : toggleBreakpoint emits codeBase st line = st := by
  simp [toggleBreakpoint, hplace, hloaded]

theorem Settled.mem_dots (hst : Settled emits codeBase st) (hline : st.byAddr.Holds addr line) :
    line ∈ st.dots := by
  obtain ⟨lines, hlines, hmem⟩ := hline
  exact (hst.dots_of_key addr lines hlines).2 line hmem

/-- The lines kept at an address, with an absent key read as none. -/
theorem mem_getD {keyed : KeyedLines} : line ∈ (keyed addr).getD [] ↔ keyed.Holds addr line := by
  cases hlines : keyed addr with
  | none => simp [KeyedLines.Holds, hlines]
  | some lines => simp [KeyedLines.Holds, hlines]

theorem holds_update_some {keyed : KeyedLines} {lines : Lines} {other l : Nat} :
    KeyedLines.Holds (Function.update keyed addr (some lines)) other l ↔
      (other = addr ∧ l ∈ lines) ∨ (other ≠ addr ∧ keyed.Holds other l) := by
  by_cases hother : other = addr
  · subst hother
    simp [KeyedLines.Holds]
  · simp [KeyedLines.Holds, hother]

/-- In a settled state an absent key is one with no line. -/
theorem Settled.getD_eq_nil (hst : Settled emits codeBase st) :
    (st.byAddr addr).getD [] = [] ↔ addr ∉ st.armed := by
  rw [hst.armed_iff]
  cases hlines : st.byAddr addr with
  | none => simp
  | some lines => simpa using (hst.dots_of_key addr lines hlines).1

/-- Everything a click leaves settled, from what it says of the new key. -/
theorem Settled.of_update {st' : State} (hst : Settled emits codeBase st)
    (found : Option Lines) (hassembly : st'.assembly = st.assembly)
    (hkeyed : st'.byAddr = Function.update st.byAddr addr found)
    (harmed : ∀ other, other ∈ st'.armed ↔
      (other = addr ∧ found.isSome = true) ∨ (other ≠ addr ∧ other ∈ st.armed))
    (hfound : ∀ lines, found = some lines → lines ≠ [] ∧ ∀ l ∈ lines, l ∈ st'.dots ∧
      st.assembly.place emits codeBase l = some addr)
    (hothers : ∀ l, st.assembly.place emits codeBase l ≠ some addr →
      (l ∈ st'.dots ↔ l ∈ st.dots))
    (hhere : ∀ l ∈ st'.dots, st.assembly.place emits codeBase l = some addr →
      ∃ lines, found = some lines ∧ l ∈ lines) :
    Settled emits codeBase st' where
  armed_iff other := by
    rw [harmed, hkeyed]
    by_cases hother : other = addr
    · subst hother
      simp [Option.isSome_iff_exists]
    · simp [hother, hst.armed_iff]
  dots_of_key other lines hlines := by
    rw [hkeyed] at hlines
    by_cases hother : other = addr
    · subst hother
      rw [Function.update_self] at hlines
      exact ⟨(hfound lines hlines).1, fun l hl => ((hfound lines hlines).2 l hl).1⟩
    · rw [Function.update_of_ne hother] at hlines
      refine ⟨(hst.dots_of_key other lines hlines).1, fun l hl => ?_⟩
      have hplace := hst.resolves other l ⟨lines, hlines, hl⟩
      rw [hothers l (by simp [hplace, hother])]
      exact (hst.dots_of_key other lines hlines).2 l hl
  some_key l hl := by
    by_cases hplace : st.assembly.place emits codeBase l = some addr
    · obtain ⟨lines, hlines, hmem⟩ := hhere l hl hplace
      exact ⟨addr, lines, by rw [hkeyed, Function.update_self, hlines], hmem⟩
    · obtain ⟨other, hother⟩ := hst.some_key l ((hothers l hplace).1 hl)
      have hne : other ≠ addr := by
        rintro rfl
        exact hplace (hst.resolves other l hother)
      refine ⟨other, ?_⟩
      obtain ⟨lines, hlines, hmem⟩ := hother
      exact ⟨lines, by rw [hkeyed, Function.update_of_ne hne, hlines], hmem⟩
  resolves other l hl := by
    rw [hassembly]
    rw [hkeyed] at hl
    obtain ⟨lines, hlines, hmem⟩ := hl
    by_cases hother : other = addr
    · subst hother
      rw [Function.update_self] at hlines
      exact ((hfound lines hlines).2 l hmem).2
    · rw [Function.update_of_ne hother] at hlines
      exact hst.resolves other l ⟨lines, hlines, hmem⟩

theorem toggle_settled (hst : Settled emits codeBase st) (hloaded : st.loaded = true)
    (line : Nat) : Settled emits codeBase (toggleBreakpoint emits codeBase st line) := by
  cases hplace : st.assembly.place emits codeBase line with
  | none => rwa [toggle_unplaced hplace hloaded]
  | some addr =>
      have hkept : ∀ l, l ∈ (st.byAddr addr).getD [] →
          l ∈ st.dots ∧ st.assembly.place emits codeBase l = some addr := by
        intro l hl
        rw [mem_getD] at hl
        exact ⟨hst.mem_dots hl, hst.resolves addr l hl⟩
      have hall : ∀ l ∈ st.dots, st.assembly.place emits codeBase l = some addr →
          l ∈ (st.byAddr addr).getD [] := by
        intro l hl hl_place
        obtain ⟨other, hother⟩ := hst.some_key l hl
        have heq := hst.resolves other l hother
        rw [hl_place, Option.some.injEq] at heq
        subst heq
        exact mem_getD.2 hother
      have hne : ∀ l, st.assembly.place emits codeBase l ≠ some addr → l ≠ line := by
        rintro l hl rfl
        exact hl hplace
      obtain ⟨hdot, h⟩ | ⟨hdot, hleft, h⟩ | ⟨hdot, hleft, h⟩ := toggle_cases hplace
      · rw [h]
        refine hst.of_update (some _) rfl rfl ?_ ?_ ?_ ?_
        · intro other
          by_cases hnil : (st.byAddr addr).getD [] = []
          · simp only [if_pos hnil, Finset.mem_insert, Option.isSome_some]
            tauto
          · have harmed : addr ∈ st.armed := by
              rwa [hst.getD_eq_nil, not_not] at hnil
            simp only [if_neg hnil, Option.isSome_some]
            by_cases hother : other = addr
            · simp [hother, harmed]
            · simp [hother]
        · rintro lines ⟨⟩
          constructor
          · exact List.ne_nil_of_mem (Lines.mem_add.2 (Or.inr rfl))
          · intro l hl
            rw [Lines.mem_add] at hl
            obtain hl | rfl := hl
            · exact ⟨Lines.mem_add.2 (Or.inl (hkept l hl).1), (hkept l hl).2⟩
            · exact ⟨Lines.mem_add.2 (Or.inr rfl), hplace⟩
        · intro l hl
          simp [hne l hl]
        · intro l hl hl_place
          refine ⟨_, rfl, ?_⟩
          rw [Lines.mem_add] at hl ⊢
          obtain hl | rfl := hl
          · exact Or.inl (hall l hl hl_place)
          · exact Or.inr rfl
      · rw [h]
        refine hst.of_update none rfl rfl ?_ ?_ ?_ ?_
        · simp
        · rintro lines ⟨⟩
        · intro l hl
          simp [hne l hl]
        · intro l hl hl_place
          rw [Lines.mem_delete] at hl
          have hmem : l ∈ Lines.delete ((st.byAddr addr).getD []) line :=
            Lines.mem_delete.2 ⟨hall l hl.1 hl_place, hl.2⟩
          simp [hleft] at hmem
      · rw [h]
        refine hst.of_update (some _) rfl rfl ?_ ?_ ?_ ?_
        · intro other
          have harmed : addr ∈ st.armed := by
            by_contra hnot
            rw [← hst.getD_eq_nil] at hnot
            exact hleft (by simp [hnot, Lines.delete])
          by_cases hother : other = addr
          · simp [hother, harmed]
          · simp [hother]
        · rintro lines ⟨⟩
          refine ⟨hleft, fun l hl => ?_⟩
          rw [Lines.mem_delete] at hl
          exact ⟨Lines.mem_delete.2 ⟨(hkept l hl.1).1, hl.2⟩, (hkept l hl.1).2⟩
        · intro l hl
          simp [hne l hl]
        · intro l hl hl_place
          rw [Lines.mem_delete] at hl
          exact ⟨_, rfl, Lines.mem_delete.2 ⟨hall l hl.1 hl_place, hl.2⟩⟩

theorem toggle_assembly (line : Nat) :
    (toggleBreakpoint emits codeBase st line).assembly = st.assembly ∧
    (toggleBreakpoint emits codeBase st line).waiting = st.waiting := by
  cases hplace : st.assembly.place emits codeBase line with
  | none =>
      by_cases hloaded : st.loaded = true
      · simp [toggle_unplaced hplace hloaded]
      · by_cases hdot : line ∈ st.dots
        · simp [toggleBreakpoint, hplace, hloaded, hdot]
        · simp [toggleBreakpoint, hplace, hloaded, hdot]
  | some addr =>
      obtain ⟨-, h⟩ | ⟨-, -, h⟩ | ⟨-, -, h⟩ := toggle_cases hplace
      all_goals simp [h]

/-- A click on another line leaves a dot where it was. -/
theorem mem_dots_toggle {l : Nat} (hne : l ≠ line) (hl : l ∈ st.dots) :
    l ∈ (toggleBreakpoint emits codeBase st line).dots := by
  cases hplace : st.assembly.place emits codeBase line with
  | none =>
      by_cases hloaded : st.loaded = true
      · rwa [toggle_unplaced hplace hloaded]
      · by_cases hdot : line ∈ st.dots
        · simp [toggleBreakpoint, hplace, hloaded, hdot, hl, hne]
        · simp [toggleBreakpoint, hplace, hloaded, hdot, hl]
  | some addr =>
      obtain ⟨-, h⟩ | ⟨-, -, h⟩ | ⟨-, -, h⟩ := toggle_cases hplace
      all_goals simp [h, hl, hne]

theorem toggle_unplaced_sets (hplace : st.assembly.place emits codeBase line = none) :
    (toggleBreakpoint emits codeBase st line).byAddr = st.byAddr ∧
    (toggleBreakpoint emits codeBase st line).armed = st.armed := by
  by_cases hloaded : st.loaded = true
  · simp [toggle_unplaced hplace hloaded]
  · by_cases hdot : line ∈ st.dots
    · simp [toggleBreakpoint, hplace, hloaded, hdot]
    · simp [toggleBreakpoint, hplace, hloaded, hdot]

theorem toggle_awaiting (hst : Awaiting emits codeBase st) (line : Nat) :
    Awaiting emits codeBase (toggleBreakpoint emits codeBase st line) := by
  intro other hother
  rw [(toggle_assembly line).1]
  -- an address the click did not touch keeps its lines
  have hkeep : ∀ addr ∈ st.armed, st.assembly.place emits codeBase line ≠ some addr →
      ∃ lines, st.byAddr addr = some lines ∧ lines ≠ [] ∧ ∀ l ∈ lines,
        l ∈ (toggleBreakpoint emits codeBase st line).dots ∧
          st.assembly.place emits codeBase l = some addr := by
    intro addr haddr hne
    obtain ⟨lines, hlines, hnil, hall⟩ := hst addr haddr
    refine ⟨lines, hlines, hnil, fun l hl => ⟨mem_dots_toggle ?_ (hall l hl).1, (hall l hl).2⟩⟩
    rintro rfl
    exact hne (hall l hl).2
  cases hplace : st.assembly.place emits codeBase line with
  | none =>
      obtain ⟨hkeys, harmed⟩ := toggle_unplaced_sets hplace
      rw [hkeys]
      rw [harmed] at hother
      exact hkeep other hother (by simp [hplace])
  | some addr =>
      by_cases hat : other = addr
      · subst hat
        obtain ⟨hdot, h⟩ | ⟨hdot, hleft, h⟩ | ⟨hdot, hleft, h⟩ := toggle_cases hplace
        · have hold : ∀ l ∈ (st.byAddr other).getD [], l ∈ st.dots ∧
              st.assembly.place emits codeBase l = some other := by
            intro l hl
            have harmed : other ∈ st.armed := by
              rw [h] at hother
              simpa [List.ne_nil_of_mem hl] using hother
            obtain ⟨lines, hlines, -, hall⟩ := hst other harmed
            rw [hlines, Option.getD_some] at hl
            exact hall l hl
          rw [h]
          refine ⟨_, Function.update_self .., List.ne_nil_of_mem (Lines.mem_add.2 (Or.inr rfl)),
            fun l hl => ?_⟩
          rw [Lines.mem_add] at hl
          obtain hl | rfl := hl
          · exact ⟨Lines.mem_add.2 (Or.inl (hold l hl).1), (hold l hl).2⟩
          · exact ⟨Lines.mem_add.2 (Or.inr rfl), hplace⟩
        · simp [h] at hother
        · rw [h] at hother ⊢
          obtain ⟨lines, hlines, -, hall⟩ := hst other hother
          refine ⟨_, Function.update_self .., hleft, fun l hl => ?_⟩
          rw [hlines, Option.getD_some, Lines.mem_delete] at hl
          exact ⟨Lines.mem_delete.2 ⟨(hall l hl.1).1, hl.2⟩, (hall l hl.1).2⟩
      · have hne : st.assembly.place emits codeBase line ≠ some other := by
          rw [hplace]
          exact fun heq => hat (Option.some.inj heq).symm
        have harmed : other ∈ st.armed := by
          obtain ⟨-, h⟩ | ⟨-, -, h⟩ | ⟨-, -, h⟩ := toggle_cases hplace
          · rw [h] at hother
            by_cases hnil : (st.byAddr addr).getD [] = []
            · simpa [hnil, hat] using hother
            · simpa [hnil] using hother
          · simpa [h, hat] using hother
          · simpa [h] using hother
        obtain ⟨lines, hlines, hrest⟩ := hkeep other harmed hne
        refine ⟨lines, ?_, hrest⟩
        obtain ⟨-, h⟩ | ⟨-, -, h⟩ | ⟨-, -, h⟩ := toggle_cases hplace
        all_goals rw [h, ← hlines]; exact Function.update_of_ne hat ..

end Toggle

section Rekey

/-- What a re-key has made of the dots it has read. -/
structure Rekeyed.Of (place : Nat → Option Nat) (armed : Finset Nat) (read : List Nat)
    (r : Rekeyed) : Prop where
  survivors : ∀ line, line ∈ r.survivors ↔ line ∈ read ∧ (place line).isSome = true
  holds : ∀ addr line, r.byAddr.Holds addr line ↔ line ∈ read ∧ place line = some addr
  nonempty : ∀ addr lines, r.byAddr addr = some lines → lines ≠ []
  armed_iff : ∀ addr, addr ∈ r.armed ↔ addr ∈ armed ∨ ∃ line ∈ read, place line = some addr

variable {place : Nat → Option Nat} {armed : Finset Nat}

theorem Rekeyed.Of.nil : Rekeyed.Of place armed [] ⟨fun _ => none, [], [], armed⟩ where
  survivors := by simp
  holds := by simp [KeyedLines.Holds]
  nonempty := by simp
  armed_iff := by simp

/-- A key with lines is armed already. -/
theorem Rekeyed.Of.mem_armed {read : List Nat} {r : Rekeyed} (hr : r.Of place armed read)
    {addr : Nat} (hlines : (r.byAddr addr).getD [] ≠ []) : addr ∈ r.armed := by
  obtain ⟨line, hline⟩ := List.exists_mem_of_ne_nil _ hlines
  exact (hr.armed_iff addr).2 (Or.inr ⟨line, (hr.holds addr line).1 (mem_getD.1 hline)⟩)

theorem Rekeyed.Of.key {read : List Nat} {r : Rekeyed} (hr : r.Of place armed read)
    (line : Nat) : (r.key place line).Of place armed (read ++ [line]) := by
  cases hplace : place line with
  | none =>
      have hkey : r.key place line = { r with dropped := r.dropped ++ [line] } := by
        simp [Rekeyed.key, hplace]
      rw [hkey]
      have hnot : ∀ l addr, place l = some addr → l ≠ line := by
        rintro l addr hl rfl
        simp [hplace] at hl
      constructor
      · intro l
        rw [hr.survivors, List.mem_append, List.mem_singleton]
        constructor
        · exact fun h => ⟨Or.inl h.1, h.2⟩
        · rintro ⟨hl | rfl, hsome⟩
          · exact ⟨hl, hsome⟩
          · simp [hplace] at hsome
      · intro addr l
        rw [hr.holds, List.mem_append, List.mem_singleton]
        constructor
        · exact fun h => ⟨Or.inl h.1, h.2⟩
        · rintro ⟨hl | hl, hsome⟩
          · exact ⟨hl, hsome⟩
          · exact absurd hl (hnot l addr hsome)
      · exact hr.nonempty
      · intro addr
        rw [hr.armed_iff]
        simp [hplace]
  | some addr =>
      have hkey : r.key place line =
          { r with
            survivors := r.survivors.add line
            byAddr := Function.update r.byAddr addr
              (some (Lines.add ((r.byAddr addr).getD []) line))
            armed := if (r.byAddr addr).getD [] = [] then insert addr r.armed
              else r.armed } := by
        simp [Rekeyed.key, hplace]
      rw [hkey]
      constructor
      · intro l
        simp only [Lines.mem_add, hr.survivors, List.mem_append, List.mem_singleton]
        constructor
        · rintro (h | rfl)
          · exact ⟨Or.inl h.1, h.2⟩
          · exact ⟨Or.inr rfl, by simp [hplace]⟩
        · rintro ⟨hl | rfl, hsome⟩
          · exact Or.inl ⟨hl, hsome⟩
          · exact Or.inr rfl
      · intro other l
        rw [holds_update_some, Lines.mem_add, mem_getD, hr.holds, hr.holds, List.mem_append,
          List.mem_singleton]
        constructor
        · rintro (⟨rfl, h | rfl⟩ | ⟨-, h⟩)
          · exact ⟨Or.inl h.1, h.2⟩
          · exact ⟨Or.inr rfl, hplace⟩
          · exact ⟨Or.inl h.1, h.2⟩
        · rintro ⟨hl | rfl, hl_place⟩
          · by_cases hother : other = addr
            · exact Or.inl ⟨hother, Or.inl ⟨hl, hother ▸ hl_place⟩⟩
            · exact Or.inr ⟨hother, hl, hl_place⟩
          · rw [hplace, Option.some.injEq] at hl_place
            exact Or.inl ⟨hl_place.symm, Or.inr rfl⟩
      · intro other lines hlines
        change Function.update r.byAddr addr _ other = some lines at hlines
        by_cases hother : other = addr
        · rw [hother, Function.update_self, Option.some.injEq] at hlines
          rw [← hlines]
          exact List.ne_nil_of_mem (Lines.mem_add.2 (Or.inr rfl))
        · rw [Function.update_of_ne hother] at hlines
          exact hr.nonempty other lines hlines
      · intro other
        have hsplit : (∃ l ∈ read ++ [line], place l = some other) ↔
            (∃ l ∈ read, place l = some other) ∨ addr = other := by
          simp [or_and_right, exists_or, hplace]
        rw [hsplit, ← or_assoc, ← hr.armed_iff]
        by_cases hnil : (r.byAddr addr).getD [] = []
        · simp only [if_pos hnil, Finset.mem_insert]
          rw [or_comm, eq_comm]
        · simp only [if_neg hnil]
          constructor
          · exact Or.inl
          · rintro (h | rfl)
            · exact h
            · exact hr.mem_armed hnil

theorem rebuild_of (emits : List Char → Bool) (codeBase : Nat) (a : Assembly) (dots : Lines)
    (armed : Finset Nat) :
    (rebuild emits codeBase a dots armed).Of (a.place emits codeBase) armed dots := by
  have hfold : ∀ (rest read : List Nat) (r : Rekeyed),
      r.Of (a.place emits codeBase) armed read →
      (rest.foldl (Rekeyed.key (a.place emits codeBase)) r).Of (a.place emits codeBase) armed
        (read ++ rest) := by
    intro rest
    induction rest with
    | nil =>
        intro read r hr
        simpa using hr
    | cons line rest ih =>
        intro read r hr
        simpa using ih (read ++ [line]) _ (hr.key line)
  exact hfold dots [] _ Rekeyed.Of.nil

variable {emits : List Char → Bool} {codeBase : Nat} {st : State}

/-- The CPU's answer settles a re-key, whatever was clicked while it waited. -/
theorem rekeyFinish_settled (hwaiting : st.waiting = [st.assembly])
    (hst : Awaiting emits codeBase st) :
    (rekeyFinish emits codeBase st).1.waiting = [] ∧
    Settled emits codeBase (rekeyFinish emits codeBase st).1 := by
  have hspec := rebuild_of emits codeBase st.assembly st.dots st.armed
  have hfinish : (rekeyFinish emits codeBase st).1 =
      { st with
        byAddr := (rebuild emits codeBase st.assembly st.dots st.armed).byAddr
        dots := (rebuild emits codeBase st.assembly st.dots st.armed).survivors
        armed := (rebuild emits codeBase st.assembly st.dots st.armed).armed
        waiting := [] } := by
    simp [rekeyFinish, hwaiting]
  rw [hfinish]
  refine ⟨rfl, ?_⟩
  generalize rebuild emits codeBase st.assembly st.dots st.armed = r at hspec
  constructor
  · intro addr
    change addr ∈ r.armed ↔ ∃ lines, r.byAddr addr = some lines
    rw [hspec.armed_iff]
    constructor
    · intro h
      have hline : ∃ line ∈ st.dots, st.assembly.place emits codeBase line = some addr := by
        obtain h | h := h
        · obtain ⟨lines, -, hnil, hall⟩ := hst addr h
          obtain ⟨line, hline⟩ := List.exists_mem_of_ne_nil _ hnil
          exact ⟨line, hall line hline⟩
        · exact h
      obtain ⟨line, hline, hplace⟩ := hline
      obtain ⟨lines, hlines, -⟩ := (hspec.holds addr line).2 ⟨hline, hplace⟩
      exact ⟨lines, hlines⟩
    · rintro ⟨lines, hlines⟩
      obtain ⟨line, hline⟩ := List.exists_mem_of_ne_nil _ (hspec.nonempty addr lines hlines)
      exact Or.inr ⟨line, (hspec.holds addr line).1 ⟨lines, hlines, hline⟩⟩
  · intro addr lines hlines
    refine ⟨hspec.nonempty addr lines hlines, fun line hline => ?_⟩
    have hat := (hspec.holds addr line).1 ⟨lines, hlines, hline⟩
    exact (hspec.survivors line).2 ⟨hat.1, by simp [hat.2]⟩
  · intro line hline
    obtain ⟨hdot, hsome⟩ := (hspec.survivors line).1 hline
    obtain ⟨addr, hplace⟩ := Option.isSome_iff_exists.1 hsome
    exact ⟨addr, (hspec.holds addr line).2 ⟨hdot, hplace⟩⟩
  · intro addr line hline
    exact ((hspec.holds addr line).1 hline).2

end Rekey

section Phases

/-- The phase a call leads to. A click that an edit or a missing program has left without its
map, and a second re-key over one that waits, end in no phase until the next re-key. -/
def Phase.next (st : State) : Phase → Event → Phase
  | .settled, .toggle _ => if st.loaded then .settled else .unknown
  | .waiting _, .toggle _ => .waiting true
  | _, .toggle _ => .unknown
  | .settled, .remap _ => .moved st.armed
  | .moved armed, .remap _ => .moved armed
  | .waiting false, .remap _ => .waiting false
  | _, .remap _ => .unknown
  | .waiting _, .clearAll => .waiting false
  | _, .clearAll => if st.waiting = [] then .settled else .unknown
  | _, .attempt _ => .unknown
  | _, .rekey source _ =>
      if st.waiting = [] ∧ source = st.assembly.source then .waiting false else .unknown
  | .waiting _, .answered => .settled
  | phase, .answered => phase
  | phase, .load => phase

variable (emits : List Char → Bool) (codeBase : Nat)

/-- The state and the phase after a list of calls. -/
def phased : List Event → State × Phase :=
  List.foldl (fun at_ event => (step emits codeBase at_.1 event, at_.2.next at_.1 event))
    (initial, .settled)

end Phases

section Runs

variable {emits : List Char → Bool} {codeBase : Nat} {st : State}

theorem remap_drifted {armed : Finset Nat} (hst : Drifted armed st)
    (remap : Nat → Option Nat) : Drifted armed (remapBreakpoints st remap) := by
  -- the lines left at a key are its lines, renumbered
  have hkey : ∀ addr lines, (remapBreakpoints st remap).byAddr addr = some lines →
      ∃ old, st.byAddr addr = some old ∧ old.renumber remap ≠ [] ∧
        lines = old.renumber remap := by
    intro addr lines hlines
    obtain ⟨old, hold, hsome⟩ := Option.bind_eq_some_iff.1 hlines
    by_cases hnil : old.renumber remap = []
    · simp [hnil] at hsome
    · rw [if_neg hnil, Option.some.injEq] at hsome
      exact ⟨old, hold, hnil, hsome.symm⟩
  constructor
  · exact hst.armed_eq
  · intro addr lines hlines
    obtain ⟨old, hold, -, -⟩ := hkey addr lines hlines
    exact hst.key_armed addr old hold
  · intro addr lines hlines
    obtain ⟨old, hold, hnil, rfl⟩ := hkey addr lines hlines
    refine ⟨hnil, fun l hl => ?_⟩
    obtain ⟨line, hline, hto⟩ := Lines.mem_renumber.1 hl
    exact Lines.mem_renumber.2 ⟨line, (hst.dots_of_key addr old hold).2 line hline, hto⟩
  · intro l hl
    obtain ⟨line, hline, hto⟩ := Lines.mem_renumber.1 hl
    obtain ⟨addr, lines, hlines, hmem⟩ := hst.some_key line hline
    have hl_mem : l ∈ lines.renumber remap := Lines.mem_renumber.2 ⟨line, hmem, hto⟩
    refine ⟨addr, lines.renumber remap, ?_, hl_mem⟩
    simp [remapBreakpoints, hlines, List.ne_nil_of_mem hl_mem]

theorem clear_settled : Settled emits codeBase (clearAllBreakpoints st) where
  armed_iff := by simp [clearAllBreakpoints]
  dots_of_key := by simp [clearAllBreakpoints]
  some_key := by simp [clearAllBreakpoints]
  resolves := by simp [clearAllBreakpoints, KeyedLines.Holds]

theorem awaiting_of_armed_eq (harmed : st.armed = ∅) : Awaiting emits codeBase st := by
  simp [Awaiting, harmed]

/-- A re-key called with none waiting waits, with the CPU's set empty. -/
theorem rekey_fits {source : List Char} (map : LineMap) (hwaiting : st.waiting = [])
    (hsource : source = st.assembly.source) :
    (Phase.waiting false).Fits emits codeBase (step emits codeBase st (.rekey source map)) := by
  refine ⟨?_, fun _ => rfl, awaiting_of_armed_eq rfl⟩
  simp [step, rekeyStart, hwaiting, hsource]

/-- Each call keeps what holds in its phase. -/
theorem Phase.Fits.step {phase : Phase} (hst : phase.Fits emits codeBase st) (event : Event) :
    (phase.next st event).Fits emits codeBase (step emits codeBase st event) := by
  cases event with
  | toggle line =>
      cases phase with
      | settled =>
          by_cases hloaded : st.loaded = true
          · simp only [Phase.next, if_pos hloaded]
            exact ⟨(toggle_assembly line).2.trans hst.1, toggle_settled hst.2 hloaded line⟩
          · simp only [Phase.next, if_neg hloaded]
            trivial
      | moved armed => trivial
      | waiting toggled =>
          obtain ⟨hassembly, hwaiting⟩ := @toggle_assembly emits codeBase st line
          refine ⟨?_, by simp, toggle_awaiting hst.2.2 line⟩
          rw [Breakpoints.step, hassembly, hwaiting, hst.1]
      | unknown => trivial
  | remap f =>
      cases phase with
      | settled => exact ⟨hst.1, remap_drifted hst.2.drifted f⟩
      | moved armed => exact ⟨hst.1, remap_drifted hst.2 f⟩
      | waiting toggled =>
          cases toggled with
          | false =>
              have harmed := hst.2.1 rfl
              exact ⟨hst.1, fun _ => harmed, awaiting_of_armed_eq harmed⟩
          | true => trivial
      | unknown => trivial
  | clearAll =>
      have hclear : st.waiting = [] →
          (Phase.settled).Fits emits codeBase (clearAllBreakpoints st) :=
        fun hwaiting => ⟨hwaiting, clear_settled⟩
      cases phase with
      | settled => simpa only [Phase.next, Breakpoints.step, if_pos hst.1] using hclear hst.1
      | moved armed => simpa only [Phase.next, Breakpoints.step, if_pos hst.1] using hclear hst.1
      | waiting toggled => exact ⟨hst.1, fun _ => rfl, awaiting_of_armed_eq rfl⟩
      | unknown =>
          by_cases hwaiting : st.waiting = []
          · simpa only [Phase.next, Breakpoints.step, if_pos hwaiting] using hclear hwaiting
          · simp only [Phase.next, if_neg hwaiting]
            trivial
  | attempt source =>
      cases phase with
      | settled => trivial
      | moved armed => trivial
      | waiting toggled => trivial
      | unknown => trivial
  | rekey source map =>
      have hrekey : (if st.waiting = [] ∧ source = st.assembly.source then Phase.waiting false
          else .unknown).Fits emits codeBase
            (Breakpoints.step emits codeBase st (.rekey source map)) := by
        by_cases hready : st.waiting = [] ∧ source = st.assembly.source
        · rw [if_pos hready]
          exact rekey_fits map hready.1 hready.2
        · rw [if_neg hready]
          trivial
      cases phase with
      | settled => exact hrekey
      | moved armed => exact hrekey
      | waiting toggled => exact hrekey
      | unknown => exact hrekey
  | answered =>
      cases phase with
      | settled =>
          have hsame : (rekeyFinish emits codeBase st).1 = st := by simp [rekeyFinish, hst.1]
          simpa only [Phase.next, Breakpoints.step, hsame] using hst
      | moved armed =>
          have hsame : (rekeyFinish emits codeBase st).1 = st := by simp [rekeyFinish, hst.1]
          simpa only [Phase.next, Breakpoints.step, hsame] using hst
      | waiting toggled => exact rekeyFinish_settled hst.1 hst.2.2
      | unknown => trivial
  | load =>
      cases phase with
      | settled =>
          exact ⟨hst.1, hst.2.armed_iff, hst.2.dots_of_key, hst.2.some_key, hst.2.resolves⟩
      | moved armed =>
          exact ⟨hst.1, hst.2.armed_eq, hst.2.key_armed, hst.2.dots_of_key, hst.2.some_key⟩
      | waiting toggled => exact hst
      | unknown => trivial

theorem initial_fits : (Phase.settled).Fits emits codeBase initial :=
  ⟨rfl, by simp [initial], by simp [initial], by simp [initial],
    by simp [initial, KeyedLines.Holds]⟩

/-- Every run keeps what holds in its phase. -/
theorem phased_fits (events : List Event) :
    (phased emits codeBase events).2.Fits emits codeBase (phased emits codeBase events).1 := by
  have hfold : ∀ (rest : List Event) (at_ : State × Phase),
      at_.2.Fits emits codeBase at_.1 →
      let reached := rest.foldl (fun at_ event =>
        (step emits codeBase at_.1 event, at_.2.next at_.1 event)) at_
      reached.2.Fits emits codeBase reached.1 := by
    intro rest
    induction rest with
    | nil => exact fun at_ hat => hat
    | cons event rest ih => exact fun at_ hat => ih _ (hat.step event)
  exact hfold events _ initial_fits

theorem phased_fst (events : List Event) :
    (phased emits codeBase events).1 = run emits codeBase initial events := by
  have hfold : ∀ (rest : List Event) (at_ : State × Phase),
      (rest.foldl (fun at_ event =>
        (step emits codeBase at_.1 event, at_.2.next at_.1 event)) at_).1 =
      run emits codeBase at_.1 rest := by
    intro rest
    induction rest with
    | nil => exact fun at_ => rfl
    | cons event rest ih => exact fun at_ => ih _
  exact hfold events _

/-- The click that takes the last dot of an address takes it out of the CPU's set. -/
theorem Settled.disarms (hst : Settled emits codeBase st) {addr line : Nat} {lines : Lines}
    (hlines : st.byAddr addr = some lines) (hlast : ∀ l ∈ lines, l = line) :
    addr ∉ (toggleBreakpoint emits codeBase st line).armed := by
  obtain ⟨hnil, hdots⟩ := hst.dots_of_key addr lines hlines
  obtain ⟨l, hl⟩ := List.exists_mem_of_ne_nil _ hnil
  obtain rfl := hlast l hl
  have hplace := hst.resolves addr l ⟨lines, hlines, hl⟩
  have hleft : Lines.delete ((st.byAddr addr).getD []) l = [] := by
    rw [hlines, Option.getD_some, List.eq_nil_iff_forall_not_mem]
    intro other hother
    rw [Lines.mem_delete] at hother
    exact hother.2 (hlast other hother.1)
  obtain ⟨hdot, -⟩ | ⟨-, -, h⟩ | ⟨-, hne, -⟩ := toggle_cases hplace
  · exact absurd (hdots l hl) hdot
  · simp [h]
  · exact absurd hleft hne

end Runs

section Agreement

variable (emits : List Char → Bool) (codeBase : Nat)

/-- From a re-key's answer, or a clear, to the next edit the dots, the keys and the CPU's set
agree; an edit renumbers the lines alone. -/
theorem breakpoints_agree (events : List Event) :
    ((phased emits codeBase events).2 = .settled →
      InStep (run emits codeBase initial events) ∧
      ∀ addr line lines, (run emits codeBase initial events).byAddr addr = some lines →
        (∀ l ∈ lines, l = line) →
        addr ∉ (run emits codeBase initial (events ++ [.toggle line])).armed) ∧
    ∀ armed, (phased emits codeBase events).2 = .moved armed →
      Drifted armed (run emits codeBase initial events) := by
  have hfits := @phased_fits emits codeBase events
  rw [phased_fst] at hfits
  constructor
  · intro hphase
    rw [hphase] at hfits
    refine ⟨hfits.2.inStep, fun addr line lines hlines hlast => ?_⟩
    simpa [run, step] using hfits.2.disarms hlines hlast
  · intro armed hphase
    rw [hphase] at hfits
    exact hfits.2

/-- A dot set before the program is assembled, two instructions keyed, and three clicks, two
of them on lines of the second instruction. -/
def clickedLines : List Event :=
  [.toggle 1, .attempt [], .rekey [] ⟨[(4194304, 1), (4194308, 3)], [(1, 4194304), (3, 4194308)]⟩,
    .answered, .load, .toggle 2, .toggle 3, .toggle 2]

/-- The clicks leave the lines in step; the last dot of the second instruction disarms it, and
an edit that moves the lines down leaves the armed set. -/
theorem breakpoints_agree_clicked :
    (run (fun _ => true) 4194304 initial clickedLines).armed = {4194304, 4194308} ∧
      InStep (run (fun _ => true) 4194304 initial clickedLines) ∧
      4194308 ∉ (run (fun _ => true) 4194304 initial (clickedLines ++ [.toggle 3])).armed ∧
      Drifted {4194304, 4194308}
        (run (fun _ => true) 4194304 initial (clickedLines ++ [.remap fun l => some (l + 1)])) := by
  have harmed : (run (fun _ => true) 4194304 initial clickedLines).armed =
      {4194304, 4194308} := by
    decide
  have hkey : (run (fun _ => true) 4194304 initial clickedLines).byAddr 4194308 = some [3] := by
    decide
  obtain ⟨hstep, hlast⟩ := (breakpoints_agree (fun _ => true) 4194304 clickedLines).1 rfl
  have hmoved := (breakpoints_agree (fun _ => true) 4194304
    (clickedLines ++ [.remap fun l => some (l + 1)])).2 _ rfl
  exact ⟨harmed, hstep, hlast _ 3 _ hkey (by simp), harmed ▸ hmoved⟩

/-- A line is clicked in a loaded program and an edit deletes it. -/
def deletedLine : List Event :=
  [.attempt [], .rekey [] ⟨[(4194304, 1)], [(1, 4194304)]⟩, .answered, .load, .toggle 1,
    .remap fun _ => none]

/-- The edit leaves the line's address armed and without a key. -/
theorem not_inStep_deletedLine :
    ¬ ∀ events : List Event, (run (fun _ => true) 4194304 initial events).loaded = true →
      InStep (run (fun _ => true) 4194304 initial events) := by
  intro hinStep
  have hstep := hinStep deletedLine rfl
  have harmed : 4194304 ∈ (run (fun _ => true) 4194304 initial deletedLine).armed := by decide
  have hkey : (run (fun _ => true) 4194304 initial deletedLine).byAddr 4194304 = none := by
    decide
  obtain ⟨lines, hlines⟩ := (hstep.armed_iff 4194304).1 harmed
  simp [hkey] at hlines

end Agreement

end Breakpoints

end Playground
