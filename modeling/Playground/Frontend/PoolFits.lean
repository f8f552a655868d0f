/-
What pool sizing guarantees: the trampolines and the pool follow `.text` inside the code
window, every slot is one of the pool's, and the symbol table changes at trampoline
labels only.
-/
import Playground.Frontend.EmissionWalk

namespace Playground

def SlotsFit (slots : PoolKey → Option Nat) (count : Nat) : Prop :=
  ∀ key slot, slots key = some slot → ∃ i, i < count ∧ slot = i * 8

namespace SlotsFit

theorem mono {slots : PoolKey → Option Nat} {count count' : Nat} (h : SlotsFit slots count)
    (hle : count ≤ count') : SlotsFit slots count' := by
  intro key slot hslot
  obtain ⟨i, hi, rfl⟩ := h key slot hslot
  exact ⟨i, Nat.lt_of_lt_of_le hi hle, rfl⟩

/-- A new slot at the end of the pool. -/
theorem push {slots : PoolKey → Option Nat} {count : Nat} (h : SlotsFit slots count)
    (key : PoolKey) : SlotsFit (Function.update slots key (some (count * 8))) (count + 1) := by
  intro other slot hslot
  by_cases hkey : other = key
  · subst hkey
    simp only [Function.update_self, Option.some.injEq] at hslot
    exact ⟨count, Nat.lt_succ_self count, hslot.symm⟩
  · rw [Function.update_of_ne hkey] at hslot
    exact h.mono (Nat.le_succ count) other slot hslot

end SlotsFit

namespace PoolScan

theorem slotsFit_addSlot {scan scan' : PoolScan} {key : PoolKey} {value : Except EmuError Word}
    (h : scan.addSlot key value = .ok scan') (hfit : SlotsFit scan.slots scan.values.length) :
    SlotsFit scan'.slots scan'.values.length ∧ scan'.trampolines = scan.trampolines := by
  simp only [addSlot] at h
  split at h
  · cases h
    exact ⟨hfit, rfl⟩
  · obtain ⟨v, -, h⟩ := bind_eq_ok h
    cases h
    refine ⟨?_, rfl⟩
    simpa using hfit.push key

/-- Whether an instruction calls `name` and the name is a host stub's. -/
def CallsHost (s : Scope) (tokens : List Token) (name : String) : Prop :=
  extractCallTarget tokens true = some name ∧ (s.symbols name).any isHostAddress = true

theorem mem_addCall {scan : PoolScan} {s : Scope} {tokens : List Token} {name : String} :
    name ∈ (scan.addCall s tokens).trampolines ↔
      name ∈ scan.trampolines ∨ CallsHost s tokens name := by
  unfold addCall CallsHost
  split
  · rename_i htarget
    simp [htarget]
  · rename_i target htarget
    rw [htarget]
    split
    · grind
    · rename_i addr haddr
      by_cases hnew : isHostAddress addr = true ∧ target ∉ scan.trampolines
      · rw [if_pos hnew]
        simp only [List.mem_append, List.mem_singleton, Option.some.injEq]
        constructor
        · rintro (h | rfl)
          · exact Or.inl h
          · exact Or.inr ⟨rfl, by simp [haddr, hnew.1]⟩
        · rintro (h | ⟨rfl, -⟩)
          · exact Or.inl h
          · exact Or.inr rfl
      · rw [if_neg hnew]
        constructor
        · exact Or.inl
        · rintro (h | ⟨heq, hhost⟩)
          · exact h
          · cases heq
            by_contra hmem
            exact hnew ⟨by simpa [haddr] using hhost, hmem⟩

theorem addCall_keeps (scan : PoolScan) (s : Scope) (tokens : List Token) :
    (scan.addCall s tokens).slots = scan.slots ∧ (scan.addCall s tokens).values = scan.values := by
  unfold addCall
  split
  · exact ⟨rfl, rfl⟩
  · split
    · exact ⟨rfl, rfl⟩
    · split <;> exact ⟨rfl, rfl⟩

theorem extractCallTarget_of_ldr {tokens : List Token} {mn : String} {line col : Nat}
    {rest : List Token} (htokens : tokens = ⟨.ident mn, line, col⟩ :: rest)
    (hldr : isWord mn ['l', 'd', 'r'] = true) : extractCallTarget tokens true = none := by
  subst htokens
  have hword : lowerAscii mn = ['l', 'd', 'r'] := by simpa [isWord] using hldr
  unfold extractCallTarget
  split
  · rename_i heq
    cases heq
    simp [isWord, hword]
  · rfl

/-- A literal load is no call. -/
theorem extractCallTarget_of_ldrEq {tokens : List Token} {result : String × Bool}
    (h : extractLdrEqOperand tokens = some result) : extractCallTarget tokens true = none := by
  unfold extractLdrEqOperand at h
  split at h
  · split at h
    · rename_i hldr
      exact extractCallTarget_of_ldr rfl hldr.2
    · cases h
  · cases h

theorem extractCallTarget_of_ldrLabel {tokens : List Token} {result : String × String}
    (h : extractLdrLabelLoad tokens = some result) : extractCallTarget tokens true = none := by
  unfold extractLdrLabelLoad at h
  split at h
  · simp only at h
    split at h
    · rename_i hldr
      exact extractCallTarget_of_ldr rfl hldr.1
    · cases h
  · cases h

theorem scanInstruction_spec {s : Scope} {scan scan' : PoolScan} {tokens : List Token}
    {line : Nat} {pc : Word} (h : scan.scanInstruction s tokens line pc = .ok scan')
    (hfit : SlotsFit scan.slots scan.values.length) :
    SlotsFit scan'.slots scan'.values.length ∧
      ∀ name, name ∈ scan'.trampolines ↔ name ∈ scan.trampolines ∨ CallsHost s tokens name := by
  have hnone : extractCallTarget tokens true = none → scan'.trampolines = scan.trampolines →
      ∀ name, name ∈ scan'.trampolines ↔ name ∈ scan.trampolines ∨ CallsHost s tokens name := by
    intro htarget heq name
    simp [heq, CallsHost, htarget]
  simp only [scanInstruction] at h
  split at h
  · rename_i hload
    have hadd := slotsFit_addSlot h hfit
    exact ⟨hadd.1, hnone (extractCallTarget_of_ldrEq hload) hadd.2⟩
  · split at h
    · rename_i hload
      have hadd := slotsFit_addSlot h hfit
      exact ⟨hadd.1, hnone (extractCallTarget_of_ldrLabel hload) hadd.2⟩
    · cases h
      obtain ⟨hslots, hvalues⟩ := addCall_keeps scan s tokens
      rw [hslots, hvalues]
      exact ⟨hfit, fun name => mem_addCall⟩

/-- The names that get a trampoline are those an instruction calls on the host. -/
theorem scanItems_spec {s : Scope} {scan scan' : PoolScan} {items : List Item} {pcs : List Word}
    (h : scanItems s scan items pcs = .ok scan')
    (hfit : SlotsFit scan.slots scan.values.length) :
    SlotsFit scan'.slots scan'.values.length ∧
      ∀ name, name ∈ scan'.trampolines ↔ name ∈ scan.trampolines ∨
        ∃ tokens line, Item.instruction tokens line ∈ items ∧ CallsHost s tokens name := by
  induction items generalizing scan pcs with
  | nil =>
      cases h
      exact ⟨hfit, by simp⟩
  | cons item items ih =>
      cases item with
      | instruction tokens line =>
          obtain ⟨next, hnext, h⟩ := bind_eq_ok h
          obtain ⟨hfit', hmem'⟩ := scanInstruction_spec hnext hfit
          obtain ⟨hfit'', hmem''⟩ := ih h hfit'
          refine ⟨hfit'', fun name => ?_⟩
          rw [hmem'', hmem']
          simp only [List.mem_cons, Item.instruction.injEq]
          constructor
          · rintro ((hname | hcalls) | ⟨tokens', line', hitem, hcalls⟩)
            · exact Or.inl hname
            · exact Or.inr ⟨tokens, line, Or.inl ⟨rfl, rfl⟩, hcalls⟩
            · exact Or.inr ⟨tokens', line', Or.inr hitem, hcalls⟩
          · rintro (hname | ⟨tokens', line', ⟨rfl, rfl⟩ | hitem, hcalls⟩)
            · exact Or.inl (Or.inl hname)
            · exact Or.inl (Or.inr hcalls)
            · exact Or.inr ⟨tokens', line', hitem, hcalls⟩
      | _ =>
          obtain ⟨hfit', hmem'⟩ := ih h hfit
          refine ⟨hfit', fun name => ?_⟩
          rw [hmem']
          simp

theorem slotsFit_addStub (scan : PoolScan) (name : String) (addr : Word)
    (hfit : SlotsFit scan.slots scan.values.length) :
    SlotsFit (scan.addStub name addr).slots (scan.addStub name addr).values.length ∧
      (scan.addStub name addr).values.length ≤ scan.values.length + 1 := by
  unfold addStub
  split
  · exact ⟨hfit, Nat.le_succ _⟩
  · simpa using hfit.push (name, none)

end PoolScan

theorem wireTrampolines_symbols (trampBase : Word) (idx : Nat) (names : List String)
    (symbols : SymbolTable) (scan : PoolScan) (name : String) :
    ((∀ called ∈ names, trampolineLabel called ≠ name) →
      (wireTrampolines trampBase idx names (symbols, scan)).1 name = symbols name) ∧
    ((∃ called ∈ names, trampolineLabel called = name) →
      ∃ i, i < idx + names.length ∧ (wireTrampolines trampBase idx names (symbols, scan)).1 name =
        some (trampBase + BitVec.ofNat 64 (i * 8))) := by
  induction names generalizing idx symbols scan with
  | nil => simp [wireTrampolines]
  | cons called names ih =>
      simp only [wireTrampolines]
      obtain ⟨hother, hnamed⟩ := ih (idx + 1) (Function.update symbols (trampolineLabel called)
        (some (trampBase + BitVec.ofNat 64 (idx * 8)))) (scan.addStub called
          ((Function.update symbols (trampolineLabel called)
            (some (trampBase + BitVec.ofNat 64 (idx * 8))) called).getD 0))
      constructor
      · intro hne
        rw [hother fun c hc => hne c (List.mem_cons_of_mem called hc)]
        rw [Function.update_of_ne (hne called List.mem_cons_self).symm]
      · intro hex
        by_cases hlater : ∃ c ∈ names, trampolineLabel c = name
        · obtain ⟨i, hi, heq⟩ := hnamed hlater
          refine ⟨i, ?_, heq⟩
          rw [List.length_cons]
          omega
        · obtain ⟨c, hc, hname⟩ := hex
          have hfirst : trampolineLabel called = name := by
            rcases List.mem_cons.mp hc with rfl | hc
            · exact hname
            · exact absurd ⟨c, hc, hname⟩ hlater
          refine ⟨idx, by simp, ?_⟩
          rw [hother fun c hc heq => hlater ⟨c, hc, heq⟩, ← hfirst, Function.update_self]

theorem wireTrampolines_slots (trampBase : Word) (idx : Nat) (names : List String)
    (symbols : SymbolTable) (scan : PoolScan) (hfit : SlotsFit scan.slots scan.values.length) :
    let full := (wireTrampolines trampBase idx names (symbols, scan)).2
    SlotsFit full.slots full.values.length ∧
      full.values.length ≤ scan.values.length + names.length := by
  induction names generalizing idx symbols scan with
  | nil => exact ⟨hfit, Nat.le_refl _⟩
  | cons called names ih =>
      simp only [wireTrampolines]
      have hstub := scan.slotsFit_addStub called ((Function.update symbols
        (trampolineLabel called) (some (trampBase + BitVec.ofNat 64 (idx * 8))) called).getD 0) hfit
      obtain ⟨hfit', hlen'⟩ := ih (idx + 1) (Function.update symbols (trampolineLabel called)
        (some (trampBase + BitVec.ofNat 64 (idx * 8)))) _ hstub.1
      refine ⟨hfit', ?_⟩
      have hlen := hstub.2
      rw [List.length_cons]
      omega

/-- The trampolines and the pool follow `.text` in the code window. -/
structure PoolFits (textLen : Nat) (pool : Pool) : Prop where
  trampBase : pool.trampBase = SectionKind.text.addr (trampolineOffset textLen)
  base : pool.base =
    SectionKind.text.addr (trampolineOffset textLen + pool.trampolines.length * 8)
  fits : trampolineOffset textLen + pool.trampolines.length * 8 + pool.values.length * 8 ≤
    sectionWindow
  slots : SlotsFit pool.slots pool.values.length

/-- Pool sizing: where the pool goes, which names get a trampoline, and what becomes of
the symbols. -/
theorem sizeLiteralPool_spec {program : Program} {l l' : Layout} {pool : Pool}
    (h : sizeLiteralPool program l = .ok (l', pool)) :
    PoolFits l.textLen pool ∧
      (∀ name, name ∈ pool.trampolines ↔
        ∃ tokens line, Item.instruction tokens line ∈ program.textItems ∧
          PoolScan.CallsHost l.toScope tokens name) ∧
      ∃ symbols, l' = { l with symbols := symbols } ∧
        ∀ name, ((∀ called ∈ pool.trampolines, trampolineLabel called ≠ name) →
            symbols name = l.symbols name) ∧
          ((∃ called ∈ pool.trampolines, trampolineLabel called = name) →
            ∃ i, i < pool.trampolines.length ∧
              symbols name = some (pool.trampBase + BitVec.ofNat 64 (i * 8))) := by
  obtain ⟨scan, hscan, h⟩ := bind_eq_ok h
  simp only at h
  split at h
  · cases h
  · rename_i hfits
    cases h
    have hempty : SlotsFit PoolScan.empty.slots PoolScan.empty.values.length := by
      intro key slot hslot
      cases hslot
    obtain ⟨hfit, hmem⟩ := PoolScan.scanItems_spec hscan hempty
    have hslots := wireTrampolines_slots (SectionKind.text.addr (trampolineOffset l.textLen)) 0
      scan.trampolines l.symbols scan hfit
    refine ⟨⟨rfl, rfl, ?_, hslots.1⟩, ?_, _, rfl, ?_⟩
    · have hlen := hslots.2
      simp only
      omega
    · intro name
      simp [hmem name, PoolScan.empty]
    · intro name
      have hsymbols := wireTrampolines_symbols (SectionKind.text.addr (trampolineOffset l.textLen))
        0 scan.trampolines l.symbols scan name
      simpa using hsymbols

end Playground
