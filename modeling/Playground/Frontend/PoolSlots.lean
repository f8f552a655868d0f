/-
What the pool holds for each literal load of `.text`: the constant of the first load with
the same key.  Loads share a slot when their keys are the same, and only then.
-/
import Playground.Frontend.PoolFits
import Playground.Library.Interning

namespace Playground

open Interning

/-- The tokens after the `=` of an `ldr reg, =expr`. -/
def ldrEqOperand (tokens : List Token) : List Token :=
  (tokens.dropWhile fun t => t.kind ≠ .comma).drop 2

def ldrLabelOperand (tokens : List Token) : List Token := tokens.drop 3

theorem extractLdrEqOperand_eq {tokens : List Token} {text : String} {dotRelative : Bool}
    (h : extractLdrEqOperand tokens = some (text, dotRelative)) :
    text = stringifyTokens (ldrEqOperand tokens) ∧
      dotRelative = (ldrEqOperand tokens).any fun t => t.kind = .dot := by
  unfold extractLdrEqOperand at h
  split at h
  · split at h
    · split at h
      · rename_i hoperand
        cases h
        unfold ldrEqOperand
        rw [hoperand]
        exact ⟨rfl, rfl⟩
      · cases h
    · cases h
  · cases h

theorem extractLdrLabelLoad_eq {tokens : List Token} {reg text : String}
    (h : extractLdrLabelLoad tokens = some (reg, text)) :
    text = stringifyTokens (ldrLabelOperand tokens) := by
  unfold extractLdrLabelLoad at h
  split at h
  · simp only at h
    split at h
    · cases h
      rfl
    · cases h
  · cases h

/-- How a literal load is written: `ldr reg, =expr` or `ldr reg, label`. -/
inductive LiteralForm
  | constant
  | label (reg : String)
deriving DecidableEq

/-- A literal load of `.text`, at its line and address. -/
structure LiteralLoad where
  form : LiteralForm
  tokens : List Token
  operand : List Token
  line : Nat
  pc : Word

namespace LiteralLoad

/-- The load an instruction is, if it is one. -/
def ofTokens (tokens : List Token) (line : Nat) (pc : Word) : Option LiteralLoad :=
  match extractLdrEqOperand tokens with
  | some _ => some ⟨.constant, tokens, ldrEqOperand tokens, line, pc⟩
  | none =>
      match extractLdrLabelLoad tokens with
      | some (reg, _) => some ⟨.label reg, tokens, ldrLabelOperand tokens, line, pc⟩
      | none => none

theorem fields_ofTokens {tokens : List Token} {line : Nat} {pc : Word} {l : LiteralLoad}
    (h : ofTokens tokens line pc = some l) : l.tokens = tokens ∧ l.line = line ∧ l.pc = pc := by
  unfold ofTokens at h
  split at h
  · cases h
    exact ⟨rfl, rfl, rfl⟩
  · split at h
    · cases h
      exact ⟨rfl, rfl, rfl⟩
    · cases h

/-- The address in the key: the load's own, for an `=expr` that names `.`. -/
def keyAddress (l : LiteralLoad) : Option Word :=
  if l.form = .constant ∧ (l.operand.any fun t => t.kind = .dot) = true then some l.pc else none

def key (l : LiteralLoad) : PoolKey := (stringifyTokens l.operand, l.keyAddress)

/-- What the operand stands for at its own line, with `.` the load's own address. -/
def value (l : LiteralLoad) (s : Scope) : Except EmuError Word :=
  Operands.evaluateLinked l.operand s l.pc l.line

/-- What the pool gets if this load is the first of its key: the operand's text, read
again. -/
def pooled (l : LiteralLoad) (s : Scope) : Except EmuError Word :=
  resolveLdrEqTarget l.key.1 s (l.key.2.getD 0) l.line

/-- The two forms, with what the linker reads off the tokens. -/
theorem ofTokens_cases {tokens : List Token} {line : Nat} {pc : Word} {l : LiteralLoad}
    (h : ofTokens tokens line pc = some l) :
    (l.form = .constant ∧ ∃ dotRelative, extractLdrEqOperand tokens = some (l.key.1, dotRelative) ∧
      l.key.2 = if dotRelative then some pc else none) ∨
    ∃ reg, l.form = .label reg ∧ extractLdrLabelLoad tokens = some (reg, l.key.1) ∧
      l.key.2 = none := by
  unfold ofTokens at h
  split at h
  · rename_i load heq
    obtain ⟨text, dotRelative⟩ := load
    obtain ⟨rfl, rfl⟩ := extractLdrEqOperand_eq heq
    cases h
    refine Or.inl ⟨rfl, _, heq, ?_⟩
    simp [key, keyAddress]
  · split at h
    · rename_i reg text hlabel
      obtain rfl := extractLdrLabelLoad_eq hlabel
      cases h
      exact Or.inr ⟨reg, rfl, hlabel, by simp [key, keyAddress]⟩
    · cases h

end LiteralLoad

/-- No instruction is both forms. -/
theorem extractLdrLabelLoad_of_ldrEq {tokens : List Token} {load : String × Bool}
    (h : extractLdrEqOperand tokens = some load) : extractLdrLabelLoad tokens = none := by
  unfold extractLdrLabelLoad
  split
  · rename_i mn l c reg l' c' l'' c'' first rest
    simp only
    rw [if_neg]
    rintro ⟨-, -, hplain, -⟩
    unfold extractLdrEqOperand at h
    simp only [List.dropWhile_cons] at h
    simp at h hplain
    split at h
    · rename_i heq
      cases heq
      exact hplain.1.2.1 rfl
    · cases h.2
  · rfl

/-- The literal loads among items of `.text`, each at the address placement recorded. -/
def literalLoads : List Item → List Word → List LiteralLoad
  | [], _ => []
  | .instruction tokens line :: items, pcs =>
      (LiteralLoad.ofTokens tokens line (pcs.headD 0)).toList ++ literalLoads items pcs.tail
  | _ :: items, pcs => literalLoads items pcs

def firstLoad (loads : List LiteralLoad) (key : PoolKey) : Option LiteralLoad :=
  loads.find? fun l => l.key = key

/-- A key stands for the constant of its first load. -/
def Denotes (s : Scope) (loads : List LiteralLoad) (key : PoolKey) (v : Word) : Prop :=
  ∃ first, firstLoad loads key = some first ∧ first.pooled s = .ok v

theorem Denotes.append {s : Scope} {loads : List LiteralLoad} {key : PoolKey} {v : Word}
    (h : Denotes s loads key v) (more : List LiteralLoad) : Denotes s (loads ++ more) key v := by
  obtain ⟨first, hfirst, hv⟩ := h
  refine ⟨first, ?_, hv⟩
  rw [firstLoad] at hfirst ⊢
  rw [List.find?_append, hfirst]
  rfl

/-- A slot is eight bytes. -/
def poolCell (i : Nat) : Nat := i * 8

theorem poolCell_injective : Function.Injective poolCell := by
  intro i j h
  unfold poolCell at h
  omega

namespace PoolScan

/-- The scan has seen `loads`: each has a slot, which holds the constant of the first
load with its key. -/
structure Seen (s : Scope) (loads : List LiteralLoad) (scan : PoolScan) : Prop where
  interns : Interns poolCell scan.slots scan.values (Denotes s loads)
  slotted : ∀ l ∈ loads, ∃ slot, scan.slots l.key = some slot

/-- One load more. -/
theorem Seen.addSlot {s : Scope} {loads : List LiteralLoad} {scan scan' : PoolScan}
    (hseen : scan.Seen s loads) {l : LiteralLoad}
    (h : scan.addSlot l.key (l.pooled s) = .ok scan') : scan'.Seen s (loads ++ [l]) := by
  have hkept := hseen.interns.mono fun key v hv => hv.append [l]
  simp only [PoolScan.addSlot] at h
  split at h
  · rename_i slot hslot
    cases h
    refine ⟨hkept, ?_⟩
    intro other hother
    rcases List.mem_append.mp hother with hother | hother
    · exact hseen.slotted other hother
    · obtain rfl := List.mem_singleton.mp hother
      exact ⟨slot, hslot⟩
  · rename_i hnew
    obtain ⟨v, hv, h⟩ := bind_eq_ok h
    cases h
    -- no load seen so far has this key
    have hfirst : firstLoad (loads ++ [l]) l.key = some l := by
      have hnone : loads.find? (fun other => other.key = l.key) = none := by
        rw [List.find?_eq_none]
        intro other hother hkey
        obtain ⟨slot, hslot⟩ := hseen.slotted other hother
        rw [of_decide_eq_true hkey, hnew] at hslot
        cases hslot
      rw [firstLoad, List.find?_append, hnone]
      simp
    refine ⟨hkept.add poolCell_injective hnew ⟨l, hfirst, hv⟩, ?_⟩
    intro other hother
    by_cases hkey : other.key = l.key
    · exact ⟨_, by rw [hkey]; exact Function.update_self _ _ _⟩
    · rcases List.mem_append.mp hother with hother | hother
      · obtain ⟨slot, hslot⟩ := hseen.slotted other hother
        exact ⟨slot, by simpa only [Function.update_of_ne hkey] using hslot⟩
      · exact absurd (congrArg LiteralLoad.key (List.mem_singleton.mp hother)) hkey

theorem Seen.scanInstruction {s : Scope} {loads : List LiteralLoad} {scan scan' : PoolScan}
    (hseen : scan.Seen s loads) {tokens : List Token} {line : Nat} {pc : Word}
    (h : scan.scanInstruction s tokens line pc = .ok scan') :
    scan'.Seen s (loads ++ (LiteralLoad.ofTokens tokens line pc).toList) := by
  unfold PoolScan.scanInstruction at h
  unfold LiteralLoad.ofTokens
  rcases heq : extractLdrEqOperand tokens with _ | ⟨text, dotRelative⟩
  · rcases hlabel : extractLdrLabelLoad tokens with _ | ⟨reg, text⟩
    · simp only [heq, hlabel] at h
      cases h
      obtain ⟨hslots, hvalues⟩ := addCall_keeps scan s tokens
      simp only [Option.toList_none, List.append_nil]
      constructor
      · rw [hslots, hvalues]
        exact hseen.interns
      · rw [hslots]
        exact hseen.slotted
    · obtain rfl := extractLdrLabelLoad_eq hlabel
      simp only [heq, hlabel] at h
      apply hseen.addSlot
      simpa [LiteralLoad.pooled, LiteralLoad.key, LiteralLoad.keyAddress] using h
  · obtain ⟨rfl, rfl⟩ := extractLdrEqOperand_eq heq
    simp only [heq] at h
    apply hseen.addSlot
    simpa [LiteralLoad.pooled, LiteralLoad.key, LiteralLoad.keyAddress] using h

/-- Scanning items sees their loads. -/
theorem Seen.scanItems {s : Scope} {loads : List LiteralLoad} {scan scan' : PoolScan}
    (hseen : scan.Seen s loads) {items : List Item} {pcs : List Word}
    (h : PoolScan.scanItems s scan items pcs = .ok scan') :
    scan'.Seen s (loads ++ literalLoads items pcs) := by
  induction items generalizing scan loads pcs with
  | nil =>
      cases h
      simpa [literalLoads] using hseen
  | cons item items ih =>
      cases item with
      | instruction tokens line =>
          obtain ⟨next, hnext, h⟩ := bind_eq_ok h
          have hrest := ih (hseen.scanInstruction hnext) h
          rw [List.append_assoc] at hrest
          exact hrest
      | _ => exact ih hseen h

theorem extends_addStub (scan : PoolScan) (name : String) (addr : Word) :
    Extends scan.slots scan.values (scan.addStub name addr).slots
      (scan.addStub name addr).values := by
  unfold addStub
  split
  · exact Extends.refl _ _
  · rename_i hnew
    exact extends_add hnew _ _

end PoolScan

theorem extends_wireTrampolines (trampBase : Word) (idx : Nat) (names : List String)
    (symbols : SymbolTable) (scan : PoolScan) :
    Extends scan.slots scan.values (wireTrampolines trampBase idx names (symbols, scan)).2.slots
      (wireTrampolines trampBase idx names (symbols, scan)).2.values := by
  induction names generalizing idx symbols scan with
  | nil => exact Extends.refl _ _
  | cons name names ih =>
      simp only [wireTrampolines]
      exact (scan.extends_addStub name _).trans (ih _ _ _)

def Program.literalLoads (program : Program) (layout : Layout) : List LiteralLoad :=
  Playground.literalLoads program.textItems layout.textInstrPcs

/-- The slot of every load holds the constant of the first load with its key, and no load
with another key has that slot. -/
theorem sizeLiteralPool_slots {program : Program} {l l' : Layout} {pool : Pool}
    (h : sizeLiteralPool program l = .ok (l', pool)) :
    (∀ load ∈ program.literalLoads l, ∃ i v, pool.slots load.key = some (poolCell i) ∧
      pool.values[i]? = some v ∧ Denotes l.toScope (program.literalLoads l) load.key v) ∧
    ∀ a ∈ program.literalLoads l, ∀ b ∈ program.literalLoads l,
      pool.slots a.key = pool.slots b.key → a.key = b.key := by
  obtain ⟨scan, hscan, h⟩ := bind_eq_ok h
  simp only at h
  split at h
  · cases h
  · cases h
    have hempty : PoolScan.empty.Seen l.toScope [] :=
      ⟨Interns.empty, fun load hload => absurd hload List.not_mem_nil⟩
    have hseen := hempty.scanItems hscan
    rw [List.nil_append] at hseen
    have hgrown := extends_wireTrampolines (SectionKind.text.addr (trampolineOffset l.textLen)) 0
      scan.trampolines l.symbols scan
    constructor
    · intro load hload
      obtain ⟨slot, hslot⟩ := hseen.slotted load hload
      obtain ⟨i, v, rfl, hvalue, hdenotes⟩ := hseen.interns.holds load.key slot hslot
      exact ⟨i, v, hgrown.slots _ _ hslot, hgrown.value hvalue, hdenotes⟩
    · intro a ha b hb hshared
      obtain ⟨slot, hslot⟩ := hseen.slotted a ha
      obtain ⟨slot', hslot'⟩ := hseen.slotted b hb
      have heq : slot = slot' := by
        apply Option.some.inj
        rw [← hgrown.slots _ _ hslot, ← hgrown.slots _ _ hslot']
        exact hshared
      rw [heq] at hslot
      exact hseen.interns.apart _ _ _ hslot hslot'

end Playground
