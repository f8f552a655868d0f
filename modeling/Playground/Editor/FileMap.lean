/-
The main buffer and the helper files joined into the one text the assembler sees, and the
lines of that text mapped back to each file.
-/
import Playground.Library.Lines

namespace Playground

namespace FileMap

/-- A helper file of the workspace. -/
structure SourceFile where
  name : List Char
  body : List Char
deriving DecidableEq, Repr

/-- A workspace as one coordinate space: the main buffer plus its helpers. -/
structure Workspace where
  main : List Char
  extras : List SourceFile
deriving DecidableEq, Repr

/-- A line of one file; `file` is `none` for the main buffer, else an index into the
helpers. -/
structure FileLocation where
  file : Option Nat
  name : List Char
  line : Nat
deriving DecidableEq, Repr

def mainName : List Char := "main.asm".toList

def boundaryComment (name : List Char) : List Char :=
  "// ---- ".toList ++ name ++ " ----".toList

/-- The main buffer, then each helper behind a marker comment. -/
def combineSources (w : Workspace) : List Char :=
  if w.extras = [] then w.main
  else
    List.intercalate ['\n']
      (w.main :: w.extras.flatMap fun f => [boundaryComment f.name, f.body])

/-- The number of lines of a buffer; an empty one has one. -/
def countLines (text : List Char) : Nat := 1 + text.count '\n'

/-- The helper and the line in it for the line `remaining` behind the main buffer. -/
def resolveExtra (i remaining : Nat) : List SourceFile → FileLocation
  | [] => ⟨none, mainName, 1⟩
  | f :: extras =>
      -- the boundary comment takes one line ahead of the body
      let remaining := remaining - 1
      let bodyLines := countLines f.body
      if remaining ≤ bodyLines ∨ extras = [] then
        ⟨some i, f.name, max 1 (min remaining bodyLines)⟩
      else resolveExtra (i + 1) (remaining - bodyLines) extras

def resolveLine (combinedLine : Nat) (w : Workspace) : FileLocation :=
  let mainLines := countLines w.main
  if combinedLine ≤ mainLines ∨ w.extras = [] then
    ⟨none, mainName, max 1 (min combinedLine mainLines)⟩
  else resolveExtra 0 (combinedLine - mainLines) w.extras

/-- The lines a helper takes in the joined text. -/
def blockLines (f : SourceFile) : Nat := 1 + countLines f.body

def combinedLineFor (file : Option Nat) (line : Nat) (w : Workspace) : Nat :=
  match file with
  | none => line
  | some i => countLines w.main + ((w.extras.take i).map blockLines).sum + 1 + line

def Workspace.body (w : Workspace) : Option Nat → Option (List Char)
  | none => some w.main
  | some i => w.extras[i]?.map SourceFile.body

/-- Where one stored breakpoint moves. -/
def remapTarget (line : Nat) (before after : Workspace) : Option Nat :=
  let loc := resolveLine line before
  (after.body loc.file).map fun owner =>
    combinedLineFor loc.file (min loc.line (countLines owner)) after

/-- Where each stored breakpoint moves when the workspace changes, or `none` when none
does. -/
def planBreakpointRemap (stored : List Nat) (before after : Workspace) :
    Option (List (Nat × Option Nat)) :=
  if stored = [] then none
  else
    let moved := stored.map fun line => (line, remapTarget line before after)
    if moved.any fun m => decide (m.2 ≠ some m.1) then some moved else none

/-- Where a breakpoint stands once the plan is carried out. -/
def remapped (stored : List Nat) (before after : Workspace) (line : Nat) : Option Nat :=
  match planBreakpointRemap stored before after with
  | none => some line
  | some moved => (moved.lookup line).join

example : resolveLine 4 ⟨"a\nb".toList, [⟨"h.s".toList, "c".toList⟩]⟩ =
    ⟨some 0, "h.s".toList, 1⟩ := by decide

section Mapping

variable {w : Workspace} {extras : List SourceFile} {f : SourceFile} {i line : Nat}

theorem countLines_pos (text : List Char) : 1 ≤ countLines text := Nat.le_add_right 1 _

theorem length_splitOn_newline (text : List Char) :
    (text.splitOn '\n').length = countLines text := by
  rw [Lines.length_splitOn, countLines, Nat.add_comm]

/-- The lines of a helper in the joined text. -/
def block (f : SourceFile) : List (List Char) := boundaryComment f.name :: f.body.splitOn '\n'

theorem length_block (f : SourceFile) : (block f).length = blockLines f := by
  rw [block, List.length_cons, length_splitOn_newline, blockLines, Nat.add_comm]

/-- No name has a line end, as the check of file names sees to. -/
def NamesFit (w : Workspace) : Prop := ∀ f ∈ w.extras, '\n' ∉ f.name

theorem not_mem_boundaryComment {name : List Char} (h : '\n' ∉ name) :
    '\n' ∉ boundaryComment name := by
  unfold boundaryComment
  rw [List.mem_append, List.mem_append, not_or, not_or]
  exact ⟨⟨by decide, h⟩, by decide⟩

/-- The lines of the joined text: the main buffer's, then each helper's. -/
theorem splitOn_combineSources (h : NamesFit w) : (combineSources w).splitOn '\n' =
    w.main.splitOn '\n' ++ w.extras.flatMap block := by
  have hblocks : w.extras.flatMap
        (fun f => (boundaryComment f.name).splitOn '\n' ++ f.body.splitOn '\n') =
      w.extras.flatMap block := by
    apply List.flatMap_congr
    intro f hf
    rw [List.splitOn_eq_singleton (not_mem_boundaryComment (h f hf))]
    rfl
  unfold combineSources
  split
  · rename_i hnone
    simp [hnone]
  · rw [Lines.splitOn_intercalate _ (by simp), List.flatMap_cons, ← hblocks, List.flatMap_assoc]
    simp

theorem resolveExtra_eq (hf : extras[i]? = some f) (hline : line ≤ countLines f.body) (k : Nat) :
    resolveExtra k (((extras.take i).map blockLines).sum + 1 + line) extras =
      ⟨some (k + i), f.name, max 1 line⟩ := by
  induction extras generalizing i k with
  | nil => simp at hf
  | cons g extras ih =>
      cases i with
      | zero =>
          obtain rfl : g = f := by simpa using hf
          have hremaining :
              ((List.take 0 (g :: extras)).map blockLines).sum + 1 + line - 1 = line := by
            simp
          rw [resolveExtra, hremaining, if_pos (Or.inl hline), Nat.min_eq_left hline]
          rfl
      | succ i =>
          have hf : extras[i]? = some f := by simpa using hf
          have hne : extras ≠ [] := by
            rintro rfl
            simp at hf
          have hsum : ((List.take (i + 1) (g :: extras)).map blockLines).sum =
              1 + countLines g.body + ((extras.take i).map blockLines).sum := by
            simp [blockLines]
          have hpast : ¬ (((List.take (i + 1) (g :: extras)).map blockLines).sum + 1 + line - 1 ≤
              countLines g.body ∨ extras = []) := by
            rw [hsum, not_or]
            exact ⟨by omega, hne⟩
          have hrest : ((List.take (i + 1) (g :: extras)).map blockLines).sum + 1 + line - 1 -
              countLines g.body = ((extras.take i).map blockLines).sum + 1 + line := by
            rw [hsum]
            omega
          rw [resolveExtra, if_neg hpast, hrest, ih hf, Nat.add_assoc, Nat.add_comm 1 i]

/-- A line of a helper, or the marker above it as line zero, is resolved to the helper. -/
theorem resolveLine_extra (hf : w.extras[i]? = some f) (hline : line ≤ countLines f.body) :
    resolveLine (combinedLineFor (some i) line w) w = ⟨some i, f.name, max 1 line⟩ := by
  have hne : w.extras ≠ [] := by
    intro hnil
    simp [hnil] at hf
  have hpast : ¬ (combinedLineFor (some i) line w ≤ countLines w.main ∨ w.extras = []) := by
    rw [not_or, combinedLineFor]
    exact ⟨by omega, hne⟩
  have hremaining : combinedLineFor (some i) line w - countLines w.main =
      ((w.extras.take i).map blockLines).sum + 1 + line := by
    rw [combinedLineFor]
    omega
  rw [resolveLine, if_neg hpast, hremaining, resolveExtra_eq hf hline, Nat.zero_add]

theorem resolveLine_main (hpos : 1 ≤ line) (hline : line ≤ countLines w.main) :
    resolveLine line w = ⟨none, mainName, line⟩ := by
  rw [resolveLine, if_pos (Or.inl hline), Nat.min_eq_left hline, Nat.max_eq_right hpos]

/-- A place in one of several lists joined, counted from the front of all. -/
theorem getElem?_flatMap {α β : Type*} {g : α → List β} {xs : List α} {x : α} {i k : Nat}
    (hx : xs[i]? = some x) (hk : k < (g x).length) :
    (xs.flatMap g)[((xs.take i).map fun x => (g x).length).sum + k]? = (g x)[k]? := by
  induction xs generalizing i with
  | nil => simp at hx
  | cons y xs ih =>
      cases i with
      | zero =>
          obtain rfl : y = x := by simpa using hx
          simp [List.getElem?_append_left hk]
      | succ i =>
          have hx : xs[i]? = some x := by simpa using hx
          rw [List.flatMap_cons, List.take_succ_cons, List.map_cons, List.sum_cons, Nat.add_assoc,
            List.getElem?_append_right (by omega), Nat.add_sub_cancel_left, ih hx]

/-- The lines of a helper stand in the joined text behind the helpers before it. -/
theorem getElem?_extra (h : NamesFit w) (hf : w.extras[i]? = some f)
    (hline : line < blockLines f) :
    ((combineSources w).splitOn '\n')[combinedLineFor (some i) line w - 1]? =
      (block f)[line]? := by
  have hblocks : ((w.extras.take i).map fun f => (block f).length) =
      (w.extras.take i).map blockLines := by
    apply List.map_congr_left
    intro f hf
    exact length_block f
  have hplace : combinedLineFor (some i) line w - 1 = (w.main.splitOn '\n').length +
      (((w.extras.take i).map fun f => (block f).length).sum + line) := by
    rw [combinedLineFor, length_splitOn_newline, hblocks]
    omega
  rw [splitOn_combineSources h, hplace, List.getElem?_append_right (Nat.le_add_right _ _),
    Nat.add_sub_cancel_left, getElem?_flatMap hf (by rwa [length_block])]

theorem length_flatMap_block (extras : List SourceFile) :
    (extras.flatMap block).length = (extras.map blockLines).sum := by
  rw [List.length_flatMap]
  congr 1
  apply List.map_congr_left
  intro f hf
  exact length_block f

/-- Every line behind the main buffer is a line of a helper or the marker above one. -/
theorem exists_extra {r : Nat} (hpos : 1 ≤ r) (hr : r ≤ (extras.map blockLines).sum) :
    ∃ i f line, extras[i]? = some f ∧ line ≤ countLines f.body ∧
      r = ((extras.take i).map blockLines).sum + 1 + line := by
  induction extras generalizing r with
  | nil =>
      rw [List.map_nil, List.sum_nil] at hr
      omega
  | cons g extras ih =>
      rw [List.map_cons, List.sum_cons] at hr
      by_cases hfirst : r ≤ blockLines g
      · refine ⟨0, g, r - 1, rfl, ?_, ?_⟩
        · rw [blockLines] at hfirst
          omega
        · simp
          omega
      · obtain ⟨i, f, line, hf, hline, heq⟩ := ih (r := r - blockLines g) (by omega) (by omega)
        refine ⟨i + 1, f, line, hf, hline, ?_⟩
        rw [List.take_succ_cons, List.map_cons, List.sum_cons]
        omega

/-- Joined lines and file lines name the same text, both ways. -/
structure Exact (w : Workspace) : Prop where
  holds : ∀ (file : Option Nat) (body : List Char) (line : Nat), w.body file = some body →
    1 ≤ line → line ≤ countLines body →
    ∃ text, (body.splitOn '\n')[line - 1]? = some text ∧
      ((combineSources w).splitOn '\n')[combinedLineFor file line w - 1]? = some text ∧
      (resolveLine (combinedLineFor file line w) w).file = file ∧
      (resolveLine (combinedLineFor file line w) w).line = line
  marker : ∀ (i : Nat) (f : SourceFile), w.extras[i]? = some f →
    ((combineSources w).splitOn '\n')[combinedLineFor (some i) 0 w - 1]? =
      some (boundaryComment f.name) ∧
    resolveLine (combinedLineFor (some i) 0 w) w = ⟨some i, f.name, 1⟩
  covered : ∀ n, 1 ≤ n → n ≤ countLines (combineSources w) →
    (∃ file body line, w.body file = some body ∧ 1 ≤ line ∧ line ≤ countLines body ∧
      n = combinedLineFor file line w) ∨
    ∃ i f, w.extras[i]? = some f ∧ n = combinedLineFor (some i) 0 w

theorem exact_of_namesFit (h : NamesFit w) : Exact w where
  holds := by
    intro file body line hbody hpos hline
    have hlt : line - 1 < (body.splitOn '\n').length := by
      rw [length_splitOn_newline]
      omega
    refine ⟨(body.splitOn '\n')[line - 1], List.getElem?_eq_getElem hlt, ?_⟩
    cases file with
    | none =>
        obtain rfl : w.main = body := Option.some.inj hbody
        rw [combinedLineFor, resolveLine_main hpos hline, splitOn_combineSources h,
          List.getElem?_append_left hlt, List.getElem?_eq_getElem hlt]
        exact ⟨rfl, rfl, rfl⟩
    | some i =>
        obtain ⟨f, hf, rfl⟩ := Option.map_eq_some_iff.1 hbody
        have hblock : line < blockLines f := by
          rw [blockLines]
          omega
        obtain ⟨l, rfl⟩ : ∃ l, line = l + 1 := ⟨line - 1, by omega⟩
        rw [getElem?_extra h hf hblock, resolveLine_extra hf hline, block, List.getElem?_cons_succ,
          Nat.max_eq_right hpos]
        exact ⟨List.getElem?_eq_getElem hlt, rfl, rfl⟩
  marker := by
    intro i f hf
    rw [getElem?_extra h hf (by rw [blockLines]; omega), resolveLine_extra hf (Nat.zero_le _)]
    exact ⟨rfl, rfl⟩
  covered := by
    intro n hpos hn
    by_cases hmain : n ≤ countLines w.main
    · exact Or.inl ⟨none, w.main, n, rfl, hpos, hmain, rfl⟩
    · have htotal : n ≤ countLines w.main + (w.extras.map blockLines).sum := by
        rwa [← length_splitOn_newline, splitOn_combineSources h, List.length_append,
          length_splitOn_newline, length_flatMap_block] at hn
      obtain ⟨i, f, line, hf, hline, heq⟩ :=
        @exists_extra w.extras (n - countLines w.main) (by omega) (by omega)
      have hplace : n = combinedLineFor (some i) line w := by
        rw [combinedLineFor]
        omega
      cases line with
      | zero => exact Or.inr ⟨i, f, hf, hplace⟩
      | succ line =>
          refine Or.inl ⟨some i, f.body, line + 1, ?_, by omega, hline, hplace⟩
          rw [Workspace.body, hf]
          rfl

end Mapping

section Remap

variable {stored : List Nat} {before after : Workspace} {line : Nat}

theorem lookup_map {t : Nat → Option Nat} (h : line ∈ stored) :
    (stored.map fun line => (line, t line)).lookup line = some (t line) := by
  induction stored with
  | nil => cases h
  | cons first stored ih =>
      rw [List.map_cons, List.lookup_cons]
      by_cases heq : line = first
      · simp [heq]
      · rw [beq_false_of_ne heq]
        exact ih ((List.mem_cons.1 h).resolve_left heq)

/-- A stored breakpoint ends up at its target, whether or not any had to move. -/
theorem remapped_eq (h : line ∈ stored) :
    remapped stored before after line = remapTarget line before after := by
  have hne : stored ≠ [] := List.ne_nil_of_mem h
  unfold remapped planBreakpointRemap
  rw [if_neg hne]
  simp only
  split
  · rename_i hplan
    split at hplan
    · cases hplan
    · rename_i hsame
      rw [List.any_eq_true, not_exists] at hsame
      have hline := hsame (line, remapTarget line before after)
      rw [not_and, decide_eq_true_eq, not_not] at hline
      exact (hline (List.mem_map.2 ⟨line, h, rfl⟩)).symm
  · rename_i moved hplan
    split at hplan
    · obtain rfl := Option.some.inj hplan
      rw [lookup_map h]
      rfl
    · cases hplan

/-- A breakpoint goes to a line of the file of the name it was in, and nowhere when there
is none. -/
def SendsByName (stored : List Nat) (before after : Workspace) : Prop :=
  ∀ line ∈ stored, match (resolveLine line before).file with
    | none => ∃ l, 1 ≤ l ∧ l ≤ countLines after.main ∧
        remapped stored before after line = some (combinedLineFor none l after)
    | some i => ∀ f, before.extras[i]? = some f →
        ((∃ g ∈ after.extras, g.name = f.name) → ∃ j g l, after.extras[j]? = some g ∧
          g.name = f.name ∧ 1 ≤ l ∧ l ≤ countLines g.body ∧
          remapped stored before after line = some (combinedLineFor (some j) l after)) ∧
        ((∀ g ∈ after.extras, g.name ≠ f.name) → remapped stored before after line = none)

/-- Each helper with a breakpoint keeps its place in the list, or is closed with no file
in its place. -/
def Aligned (stored : List Nat) (before after : Workspace) : Prop :=
  ∀ line ∈ stored, ∀ i f, (resolveLine line before).file = some i →
    before.extras[i]? = some f →
      match after.extras[i]? with
      | some g => g.name = f.name
      | none => ∀ g ∈ after.extras, g.name ≠ f.name

theorem resolveExtra_line_pos (i remaining : Nat) (extras : List SourceFile) :
    1 ≤ (resolveExtra i remaining extras).line := by
  induction extras generalizing i remaining with
  | nil => exact Nat.le_refl 1
  | cons f extras ih =>
      rw [resolveExtra]
      split
      · exact Nat.le_max_left 1 _
      · exact ih _ _

theorem resolveLine_line_pos (line : Nat) (w : Workspace) : 1 ≤ (resolveLine line w).line := by
  rw [resolveLine]
  split
  · exact Nat.le_max_left 1 _
  · exact resolveExtra_line_pos _ _ _

/-- Where the target of a breakpoint in a helper lies. -/
theorem remapTarget_extra {i : Nat} (hfile : (resolveLine line before).file = some i) :
    remapTarget line before after = after.extras[i]?.map fun g =>
      combinedLineFor (some i) (min (resolveLine line before).line (countLines g.body)) after := by
  rw [remapTarget]
  simp only [hfile, Workspace.body, Option.map_map]
  rfl

theorem sendsByName_iff : SendsByName stored before after ↔ Aligned stored before after := by
  constructor
  · intro h line hline i f hfile hf
    have hsends := h line hline
    rw [hfile] at hsends
    obtain ⟨hopen, hclosed⟩ := hsends f hf
    rw [remapped_eq hline, remapTarget_extra hfile] at hopen hclosed
    cases hg : after.extras[i]? with
    | none =>
        intro g hmem hname
        obtain ⟨j, g', l, -, -, -, -, hdest⟩ := hopen ⟨g, hmem, hname⟩
        rw [hg] at hdest
        cases hdest
    | some g =>
        by_contra hname
        by_cases hexists : ∃ g' ∈ after.extras, g'.name = f.name
        · obtain ⟨j, g', l, hg', hname', hpos, hl, hdest⟩ := hopen hexists
          rw [hg, Option.map_some, Option.some.injEq] at hdest
          have hthere := resolveLine_extra hg (Nat.min_le_right (resolveLine line before).line _)
          rw [hdest, resolveLine_extra hg' hl] at hthere
          obtain rfl : j = i := Option.some.inj (congrArg FileLocation.file hthere)
          rw [hg] at hg'
          obtain rfl := Option.some.inj hg'
          exact hname hname'
        · have hnone := hclosed fun g' hmem hname' => hexists ⟨g', hmem, hname'⟩
          rw [hg] at hnone
          cases hnone
  · intro h line hline
    rw [remapped_eq hline]
    have hpos := resolveLine_line_pos line before
    split
    · rename_i hfile
      refine ⟨min (resolveLine line before).line (countLines after.main),
        Nat.le_min.2 ⟨hpos, countLines_pos _⟩, Nat.min_le_right _ _, ?_⟩
      rw [remapTarget]
      simp only [hfile, Workspace.body]
      rfl
    · rename_i i hfile
      intro f hf
      have haligned := h line hline i f hfile hf
      rw [remapTarget_extra hfile]
      cases hg : after.extras[i]? with
      | none =>
          rw [hg] at haligned
          exact ⟨fun ⟨g, hmem, hname⟩ => absurd hname (haligned g hmem), fun _ => rfl⟩
      | some g =>
          rw [hg] at haligned
          refine ⟨fun _ => ⟨i, g, _, hg, haligned, Nat.le_min.2 ⟨hpos, countLines_pos _⟩,
            Nat.min_le_right _ _, rfl⟩, fun hclosed => ?_⟩
          exact absurd haligned (hclosed g (List.mem_of_getElem? hg))

end Remap

/-- The line mapping is exact both ways; the breakpoints follow their files just when no
file with one changes its place in the list. -/
theorem fileMap_exact {stored : List Nat} {before after : Workspace} (hbefore : NamesFit before)
    (hafter : NamesFit after) :
    Exact before ∧ Exact after ∧ SendsByName stored before after ↔
      Aligned stored before after := by
  rw [sendsByName_iff]
  exact ⟨fun h => h.2.2, fun h => ⟨exact_of_namesFit hbefore, exact_of_namesFit hafter, h⟩⟩

def twoHelpers : Workspace :=
  ⟨['m'], [⟨['a', '.', 's'], ['x']⟩, ⟨['b', '.', 's'], ['y']⟩]⟩

def secondHelper : Workspace := ⟨['m'], [⟨['b', '.', 's'], ['y']⟩]⟩

/-- `twoHelpers` with a line more in the main buffer and the first helper, and a third helper. -/
def threeHelpers : Workspace :=
  ⟨['m', '\n', 'n'], [⟨['a', '.', 's'], ['x', '\n', 'u']⟩, ⟨['b', '.', 's'], ['y']⟩,
    ⟨['c', '.', 's'], ['z']⟩]⟩

/-- The breakpoints of both helpers follow their files down. -/
theorem fileMap_exact_added : Exact twoHelpers ∧ Exact threeHelpers ∧
    SendsByName [1, 3, 5] twoHelpers threeHelpers ∧
    [1, 3, 5].map (remapped [1, 3, 5] twoHelpers threeHelpers) = [some 1, some 4, some 7] := by
  have hbefore : NamesFit twoHelpers := by simp [NamesFit, twoHelpers]
  have hafter : NamesFit threeHelpers := by simp [NamesFit, threeHelpers]
  have haligned : Aligned [1, 3, 5] twoHelpers threeHelpers := by
    intro line hline i f hfile hf
    have hplaces : ∀ line ∈ [1, 3, 5], ∀ i ∈ (resolveLine line twoHelpers).file, i < 2 := by
      decide
    have hi := hplaces line hline i hfile
    interval_cases i
    · obtain rfl := Option.some.inj hf
      rfl
    · obtain rfl := Option.some.inj hf
      rfl
  obtain ⟨hexact, hexact', hsends⟩ := (fileMap_exact hbefore hafter).2 haligned
  exact ⟨hexact, hexact', hsends, by decide⟩

/-- Closing the first helper moves its breakpoint into the second. -/
theorem not_sendsByName_closed :
    ¬ (Exact twoHelpers ∧ Exact secondHelper ∧ SendsByName [3] twoHelpers secondHelper) := by
  rintro ⟨-, -, h⟩
  have hthree := (h 3 (by simp)) ⟨['a', '.', 's'], ['x']⟩ rfl
  have hnone := hthree.2 (by simp [secondHelper])
  exact absurd hnone (by decide)

end FileMap

end Playground
