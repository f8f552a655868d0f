/-
What `printf`, `sprintf` and `snprintf` leave: the text where it belongs, and its length in x0.
-/
import Playground.Hosted.PrintfLayout
import Playground.Hosted.Realloc

namespace Playground

namespace Hosted

open Exec Memory

/-- Bytes that were all stored stand in a row. -/
theorem run_writeBytesAt {addr : Word} {bytes : List Byte} {m : Machine}
    (hlen : bytes.length ≤ 2 ^ 64) (h : ((writeBytesAt addr bytes).run m).2 = .ok ()) :
    Written m.mem addr bytes ((writeBytesAt addr bytes).run m).1.mem ∧
      ((writeBytesAt addr bytes).run m).1.regs = m.regs := by
  induction bytes generalizing addr m with
  | nil => exact ⟨⟨fun a => rfl, fun i hi => absurd hi (Nat.not_lt_zero i), fun _ => id, rfl⟩, rfl⟩
  | cons b bytes ih =>
      rw [List.length_cons] at hlen
      rw [writeBytesAt, run_bind, Exec.writeU8, run_store] at h ⊢
      rcases hwrite : (m.mem.writeU8 addr b).2 with e | ⟨⟩
      · rw [hwrite] at h
        cases h
      · simp only [hwrite] at h ⊢
        obtain ⟨hrest, hregs⟩ := ih (by omega) h
        exact ⟨(written_writeU8 hwrite).cons (by omega) hrest, hregs⟩

theorem run_writeCString {buf : Word} {bytes : List Byte} {m : Machine}
    (hlen : bytes.length < 2 ^ 64) (h : ((writeCString buf bytes).run m).2 = .ok ()) :
    Written m.mem buf (bytes ++ [0]) ((writeCString buf bytes).run m).1.mem ∧
      ((writeCString buf bytes).run m).1.regs = m.regs := by
  rw [writeCString, run_bind] at h ⊢
  rcases hrun : (writeBytesAt buf bytes).run m with ⟨m', e | ⟨⟩⟩
  · rw [hrun] at h
    cases h
  · rw [hrun] at h
    obtain ⟨hfirst, hregs⟩ := run_writeBytesAt hlen.le (by rw [hrun])
    rw [hrun] at hfirst hregs
    simp only at h hfirst hregs ⊢
    rw [Exec.writeU8, run_store] at h ⊢
    exact ⟨hfirst.append (by rw [List.length_singleton]; omega) (written_writeU8 h), hregs⟩

section Engine

variable {m₀ m : Machine} {side : HostSide} {closed : Bool} {fmtPtr : Word} {firstGp : Nat}
  {what : String}

theorem run_formatInto {fmt : List Byte} (hread : readCString m.mem fmtPtr what = .ok fmt) :
    (formatInto fmtPtr firstGp what).run side closed m =
      match (formatFrom 0 0 (.new firstGp) [] fmt).run
        { side with callScratch := side.callScratch.begin fmt } closed m with
      | (m', side', .ok out) =>
          (m', { side' with callScratch := side'.callScratch.setText out }, .ok out)
      | (m', side', .error e) => (m', side', .error e) := by
  have hfmt : (liftM (attempt fun m => readCString m.mem fmtPtr what) : Stub _).run side closed m =
      (m, side, .ok fmt) := by
    rw [Stub.run_liftM, run_attempt, hread]
  rw [formatInto, Stub.run_bind_ok hfmt, Stub.run_bind_ok rfl, Stub.run_bind]
  rcases (formatFrom 0 0 (.new firstGp) [] fmt).run
    { side with callScratch := side.callScratch.begin fmt } closed m with ⟨m', side', e | out⟩
  · rfl
  · rfl

/-- The engine over the format at a pointer. -/
theorem formatInto_renders {out : List Byte} (hview : SameView m₀ m)
    (hok : ((formatInto fmtPtr firstGp what).run side closed m).2.2 = .ok out) :
    Prints m₀ side ((formatInto fmtPtr firstGp what).run side closed m) out ∧
    out.length < 2 ^ 64 ∧
    ∃ fmt kinds, readCString m₀.mem fmtPtr what = .ok fmt ∧
      Renders m₀ fmt ⟨firstGp, 0, 0⟩ kinds out ∧
      ∀ (m₀' m' : Machine) (fmtPtr' : Word) (firstGp' : Nat) (what' : String) (side' : HostSide)
        (closed' : Bool), SameView m₀' m' → m₀'.mem = m₀.mem →
        readCString m₀'.mem fmtPtr' what' = .ok fmt →
        ArgCursor.drawn m₀' ⟨firstGp', 0, 0⟩ kinds = ArgCursor.drawn m₀ ⟨firstGp, 0, 0⟩ kinds →
        Prints m₀' side' ((formatInto fmtPtr' firstGp' what').run side' closed' m') out := by
  cases hread : readCString m.mem fmtPtr what with
  | error e =>
      have hfmt : (liftM (attempt fun m => readCString m.mem fmtPtr what) : Stub _).run side closed
          m = (m, side, .error e) := by
        rw [Stub.run_liftM, run_attempt, hread]
      rw [formatInto, Stub.run_bind_error hfmt] at hok
      cases hok
  | ok fmt =>
      have hlift : ∀ {m₀ m : Machine} {side : HostSide} {closed : Bool} {fmtPtr : Word}
          {firstGp : Nat} {what : String}, readCString m.mem fmtPtr what = .ok fmt →
          Prints m₀ { side with callScratch := side.callScratch.begin fmt }
            ((formatFrom 0 0 (.new firstGp) [] fmt).run
              { side with callScratch := side.callScratch.begin fmt } closed m) out →
          Prints m₀ side ((formatInto fmtPtr firstGp what).run side closed m) out := by
        intro m₀ m side closed fmtPtr firstGp what hread hprints
        rw [run_formatInto hread]
        generalize (formatFrom 0 0 (.new firstGp) [] fmt).run
          { side with callScratch := side.callScratch.begin fmt } closed m = result at hprints
        obtain ⟨m', side', e | out'⟩ := result
        · cases hprints.ok
        · exact ⟨hprints.view, (ScratchOnly.trans ⟨_, rfl⟩ hprints.scratch).trans ⟨_, rfl⟩,
            hprints.ok⟩
      have hfrom : ((formatFrom 0 0 (.new firstGp) [] fmt).run
          { side with callScratch := side.callScratch.begin fmt } closed m).2.2 = .ok out := by
        rw [run_formatInto hread] at hok
        split at hok
        · rename_i hrun
          rw [hrun]
          exact hok
        · cases hok
      obtain ⟨hprints, hlen, kinds, text, htext, hrenders, hagree⟩ :=
        formatFrom_renders hview hfrom
      obtain rfl : out = text := htext
      have hfmt := length_readCString hread
      have hbound : maxPrintfCallBytes = 1048576 := rfl
      rw [List.length_nil] at hlen
      refine ⟨hlift hread hprints, by omega, fmt, kinds, by rw [← hview.mem, hread], hrenders, ?_⟩
      intro m₀' m' fmtPtr' firstGp' what' side' closed' hview' hmem hread' hargs
      exact hlift (by rw [hview'.mem, hread'])
        (hagree m₀' m' (.new firstGp') _ closed' hview' hmem hargs)

end Engine

section Calls

variable {m m' : Machine} {side side' : HostSide} {closed : Bool} {outcome : HostOutcome}

theorem toNat_answer {n : Nat} (hn : n < 2 ^ 64) (m : Machine) :
    (((answer (BitVec.ofNat 64 n)).run m).1.regs.gprValue 0 true).toNat = n := by
  rw [gprValue_answer, BitVec.toNat_ofNat, Nat.mod_eq_of_lt hn]

/-- `printf` prints its format behind what was there. -/
theorem run_printf (h : printf.run side closed m = (m', side', .ok outcome)) :
    ∃ fmt kinds out,
      readCString m.mem (m.regs.gprValue 0 true) "printf's format string" = .ok fmt ∧
      Renders m fmt ⟨1, 0, 0⟩ kinds out ∧ side'.stdout = side.stdout ++ out ∧
      (m'.regs.gprValue 0 true).toNat = out.length ∧ m'.mem = m.mem := by
  have hview := SameView.readGpr m 0 true
  rw [printf, run_bind_readGpr, Stub.run_bind] at h
  generalize hrun : (formatInto _ _ _).run side closed _ = result at h
  obtain ⟨m₁, side₁, e | out⟩ := result
  · cases h
  obtain ⟨hprints, hlen, fmt, kinds, hread, hrenders, -⟩ := formatInto_renders hview
    (by rw [hrun])
  rw [hrun] at hprints
  obtain ⟨call, hscratch⟩ := hprints.scratch
  simp only at hscratch h
  cases h
  exact ⟨fmt, kinds, out, hread, hrenders, by rw [hscratch], toNat_answer hlen m₁,
    hprints.view.mem⟩

/-- `sprintf` stores what the engine printed, and a terminator. -/
theorem run_sprintf (h : sprintf.run side closed m = (m', side', .ok outcome)) :
    ∃ m₁ out, SameView m m₁ ∧
      ((formatInto (m.regs.gprValue 1 true) 2 "sprintf's format string").run side closed
        m₁).2.2 = .ok out ∧
      Written m.mem (m.regs.gprValue 0 true) (out ++ [0]) m'.mem ∧
      (m'.regs.gprValue 0 true).toNat = out.length := by
  have hview := (SameView.readGpr m 0 true).trans (.readGpr _ 1 true)
  rw [sprintf, run_bind_readGpr, run_bind_readGpr, Stub.run_bind] at h
  simp only [gprValue_readGpr] at h
  generalize hrun : (formatInto _ _ _).run side closed _ = result at h
  obtain ⟨m₁, side₁, e | out⟩ := result
  · cases h
  obtain ⟨hprints, hlen, -⟩ := formatInto_renders hview (by rw [hrun])
  rw [hrun] at hprints
  simp only at h
  rw [Stub.run_bind, Stub.run_liftM] at h
  have hwrite := @run_writeCString (m.regs.gprValue 0 true) _ m₁ hlen
  generalize (writeCString _ _).run m₁ = result at h hwrite
  obtain ⟨m₂, e | ⟨⟩⟩ := result
  · cases h
  cases h
  refine ⟨_, out, hview, by rw [hrun], ?_, toNat_answer hlen m₂⟩
  rw [← hprints.view.mem]
  exact (hwrite rfl).1

theorem take_min_length (out : List Byte) (n : Nat) : out.take (min out.length n) = out.take n := by
  rw [Nat.min_comm, ← List.take_take, List.take_length]

/-- `snprintf` stores as much of it as the size has room for, and a terminator. -/
theorem run_snprintf (h : snprintf.run side closed m = (m', side', .ok outcome)) :
    ∃ m₁ out, SameView m m₁ ∧
      ((formatInto (m.regs.gprValue 2 true) 3 "snprintf's format string").run side closed
        m₁).2.2 = .ok out ∧
      (if m.regs.gprValue 1 true = 0 then m'.mem = m.mem
        else Written m.mem (m.regs.gprValue 0 true)
          (out.take ((m.regs.gprValue 1 true).toNat - 1) ++ [0]) m'.mem) ∧
      (m'.regs.gprValue 0 true).toNat = out.length := by
  have hview := ((SameView.readGpr m 0 true).trans (.readGpr _ 1 true)).trans (.readGpr _ 2 true)
  rw [snprintf, run_bind_readGpr, run_bind_readGpr, run_bind_readGpr, Stub.run_bind] at h
  simp only [gprValue_readGpr] at h
  generalize hrun : (formatInto _ _ _).run side closed _ = result at h
  obtain ⟨m₁, side₁, e | out⟩ := result
  · cases h
  obtain ⟨hprints, hlen, -⟩ := formatInto_renders hview (by rw [hrun])
  rw [hrun] at hprints
  refine ⟨_, out, hview, by rw [hrun], ?_⟩
  by_cases hsize : m.regs.gprValue 1 true = 0
  · have hnone : ¬ 0 < (m.regs.gprValue 1 true).toNat := by rw [hsize]; decide
    simp only [hnone, ↓reduceIte] at h
    cases h
    rw [if_pos hsize]
    exact ⟨hprints.view.mem, toNat_answer hlen m₁⟩
  · have hsome : 0 < (m.regs.gprValue 1 true).toNat :=
      Nat.pos_of_ne_zero fun hzero => hsize (BitVec.eq_of_toNat_eq hzero)
    simp only [hsome, ↓reduceIte, take_min_length] at h
    rw [Stub.run_bind, Stub.run_liftM] at h
    have hwrite := @run_writeCString (m.regs.gprValue 0 true)
      (out.take ((m.regs.gprValue 1 true).toNat - 1)) m₁
      ((List.length_take_le' _ _).trans_lt hlen)
    generalize (writeCString _ _).run m₁ = result at h hwrite
    obtain ⟨m₂, e | ⟨⟩⟩ := result
    · cases h
    cases h
    rw [if_neg hsize, ← hprints.view.mem]
    exact ⟨(hwrite rfl).1, toNat_answer hlen m₂⟩

end Calls

/-- Every call that comes back has printed its format as C lays it out, and answers with the
length of the text.  `printf` prints the text behind what was there; `sprintf` stores it with a
terminator; `snprintf` stores what there is room for of what `sprintf` would store, and nothing
into no room. -/
theorem printf_layout (m m' : Machine) (side side' : HostSide) (closed : Bool)
    (outcome : HostOutcome) :
    (printf.run side closed m = (m', side', .ok outcome) → ∃ fmt kinds out,
      readCString m.mem (m.regs.gprValue 0 true) "printf's format string" = .ok fmt ∧
      Renders m fmt ⟨1, 0, 0⟩ kinds out ∧ side'.stdout = side.stdout ++ out ∧
      (m'.regs.gprValue 0 true).toNat = out.length ∧ m'.mem = m.mem) ∧
    (sprintf.run side closed m = (m', side', .ok outcome) → ∃ fmt kinds out,
      readCString m.mem (m.regs.gprValue 1 true) "sprintf's format string" = .ok fmt ∧
      Renders m fmt ⟨2, 0, 0⟩ kinds out ∧
      Written m.mem (m.regs.gprValue 0 true) (out ++ [0]) m'.mem ∧
      (m'.regs.gprValue 0 true).toNat = out.length) ∧
    (snprintf.run side closed m = (m', side', .ok outcome) → ∃ fmt kinds out,
      readCString m.mem (m.regs.gprValue 2 true) "snprintf's format string" = .ok fmt ∧
      Renders m fmt ⟨3, 0, 0⟩ kinds out ∧
      (if m.regs.gprValue 1 true = 0 then m'.mem = m.mem
        else Written m.mem (m.regs.gprValue 0 true)
          (out.take ((m.regs.gprValue 1 true).toNat - 1) ++ [0]) m'.mem) ∧
      (m'.regs.gprValue 0 true).toNat = out.length ∧
      ∀ (m₂ m₂' : Machine) (side₂ side₂' : HostSide) (closed₂ : Bool) (outcome₂ : HostOutcome),
        m₂.mem = m.mem →
        readCString m₂.mem (m₂.regs.gprValue 1 true) "sprintf's format string" = .ok fmt →
        ArgCursor.drawn m₂ ⟨2, 0, 0⟩ kinds = ArgCursor.drawn m ⟨3, 0, 0⟩ kinds →
        sprintf.run side₂ closed₂ m₂ = (m₂', side₂', .ok outcome₂) →
        Written m₂.mem (m₂.regs.gprValue 0 true) (out ++ [0]) m₂'.mem ∧
          (m₂'.regs.gprValue 0 true).toNat = out.length) := by
  refine ⟨run_printf, fun h => ?_, fun h => ?_⟩
  · obtain ⟨m₁, out, hview, hok, hwritten, hlength⟩ := run_sprintf h
    obtain ⟨-, -, fmt, kinds, hread, hrenders, -⟩ := formatInto_renders hview hok
    exact ⟨fmt, kinds, out, hread, hrenders, hwritten, hlength⟩
  · obtain ⟨m₁, out, hview, hok, hwritten, hlength⟩ := run_snprintf h
    obtain ⟨-, -, fmt, kinds, hread, hrenders, hagree⟩ := formatInto_renders hview hok
    refine ⟨fmt, kinds, out, hread, hrenders, hwritten, hlength, ?_⟩
    intro m₂ m₂' side₂ side₂' closed₂ outcome₂ hmem hread₂ hargs h₂
    obtain ⟨m₃, out₂, hview₂, hok₂, hwritten₂, hlength₂⟩ := run_sprintf h₂
    have hprints := hagree m₂ m₃ _ 2 _ side₂ closed₂ hview₂ hmem hread₂ hargs
    obtain rfl : out₂ = out := Except.ok.inj (hok₂.symm.trans hprints.ok)
    exact ⟨hwritten₂, hlength₂⟩

/-- `%+05d|`, and where a call finds it and 42. -/
def signedMachine (buf size fmt value : Nat) : Machine :=
  ⟨(((RegisterFile.new.writeGpr buf true 0x500100).writeGpr size true 4).writeGpr fmt true
    0x500000).writeGpr value true 42, textMemory [0x25, 0x2B, 0x30, 0x35, 0x64, 0x7C, 0],
    HeapState.new⟩

/-- `printf(format, 42)`, the other two arguments where it does not look. -/
def printfSigned : Machine := signedMachine 5 6 0 1

/-- `sprintf(0x500100, format, 42)`. -/
def sprintfSigned : Machine := signedMachine 0 6 1 2

/-- `snprintf(0x500100, 4, format, 42)`. -/
def snprintfSigned : Machine := signedMachine 0 1 2 3

theorem run_eq_of_answers {stub : Stub HostOutcome} {side : HostSide} {closed : Bool} {m : Machine}
    (h : (stub.run side closed m).2.2 = .ok .continue) : stub.run side closed m =
      ((stub.run side closed m).1, (stub.run side closed m).2.1, .ok .continue) := by
  rw [← h]

/-- Six bytes each time, printed, stored, and stored as far as three. -/
theorem printf_layout_signed :
    (∃ m' side' fmt kinds out, printf.run HostSide.idle false printfSigned =
        (m', side', .ok .continue) ∧
      Renders printfSigned fmt ⟨1, 0, 0⟩ kinds out ∧ out.length = 6 ∧ side'.stdout = out) ∧
    (∃ m' side' fmt kinds out, sprintf.run HostSide.idle false sprintfSigned =
        (m', side', .ok .continue) ∧
      Renders sprintfSigned fmt ⟨2, 0, 0⟩ kinds out ∧ out.length = 6 ∧
      Written sprintfSigned.mem 0x500100 (out ++ [0]) m'.mem) ∧
    ∃ m' side' fmt kinds out, snprintf.run HostSide.idle false snprintfSigned =
        (m', side', .ok .continue) ∧
      Renders snprintfSigned fmt ⟨3, 0, 0⟩ kinds out ∧ out.length = 6 ∧
      Written snprintfSigned.mem 0x500100 (out.take 3 ++ [0]) m'.mem := by
  refine ⟨?_, ?_, ?_⟩
  · have hrun := @run_eq_of_answers printf HostSide.idle false printfSigned (by decide)
    have hx0 : ((printf.run HostSide.idle false printfSigned).1.regs.gprValue 0 true).toNat =
        6 := by
      decide
    obtain ⟨fmt, kinds, out, -, hrenders, hstdout, hlength, -⟩ :=
      (printf_layout printfSigned _ HostSide.idle _ false .continue).1 hrun
    exact ⟨_, _, fmt, kinds, out, hrun, hrenders, hlength.symm.trans hx0, hstdout⟩
  · have hrun := @run_eq_of_answers sprintf HostSide.idle false sprintfSigned (by decide)
    have hx0 : ((sprintf.run HostSide.idle false sprintfSigned).1.regs.gprValue 0 true).toNat =
        6 := by
      decide
    obtain ⟨fmt, kinds, out, -, hrenders, hwritten, hlength⟩ :=
      (printf_layout sprintfSigned _ HostSide.idle _ false .continue).2.1 hrun
    exact ⟨_, _, fmt, kinds, out, hrun, hrenders, hlength.symm.trans hx0, hwritten⟩
  · have hrun := @run_eq_of_answers snprintf HostSide.idle false snprintfSigned (by decide)
    have hx0 : ((snprintf.run HostSide.idle false snprintfSigned).1.regs.gprValue 0 true).toNat =
        6 := by
      decide
    obtain ⟨fmt, kinds, out, -, hrenders, hwritten, hlength, -⟩ :=
      (printf_layout snprintfSigned _ HostSide.idle _ false .continue).2.2 hrun
    rw [if_neg (by decide)] at hwritten
    exact ⟨_, _, fmt, kinds, out, hrun, hrenders, hlength.symm.trans hx0, hwritten⟩

end Hosted

end Playground
