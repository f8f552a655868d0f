/-
A `scanf` call as steps through its format: white space, a literal character, a field.
-/
import Playground.Hosted.PrintfLayout
import Playground.Hosted.Scanf

namespace Playground

namespace Hosted

open Exec

/-- The state a conversion starts in: it has read no argument yet. -/
def ScanState.fresh (s : ScanState) : ScanState :=
  { s with walker := { s.walker with last := (argNone, 0) } }

/-- Steps of a call over an input, and the fields they convert. -/
inductive Reads (input : List Byte) (closed : Bool) : List Char → ScanState → Machine →
    List ScanSpec → List Char → ScanState → Machine → Prop
  | done (fmt : List Char) (s : ScanState) (m : Machine) : Reads input closed fmt s m [] fmt s m
  | space {c : Char} {rest fmt : List Char} {s s' : ScanState} {m m' : Machine}
      {fields : List ScanSpec} (hc : isFormatSpace c = true)
      (h : Reads input closed rest { s with inPos := skipSpace input s.inPos } m fields fmt s' m') :
      Reads input closed (c :: rest) s m fields fmt s' m'
  | literal {c : Char} {rest fmt : List Char} {s s' : ScanState} {m m' : Machine}
      {fields : List ScanSpec} {b : Byte} (hc : isFormatSpace c = false) (hpercent : c ≠ '%')
      (hb : input[s.inPos]? = some b) (heq : byteChar b = c)
      (h : Reads input closed rest { s with inPos := s.inPos + 1 } m fields fmt s' m') :
      Reads input closed (c :: rest) s m fields fmt s' m'
  | field {rest behind fmt : List Char} {s s₁ s' : ScanState} {m m₁ m' : Machine}
      {fields : List ScanSpec} {spec : ScanSpec} {used : Nat} {conv : Char}
      {stored : Option Stored} {inPos : Nat} (hspec : parseScanSpec rest = (spec, used))
      (hconv : rest.drop used = conv :: behind)
      (hfield : scanField spec conv input s.inPos closed = .taken stored inPos)
      (htake : (takeField spec stored inPos s.fresh).run m = (m₁, .ok s₁))
      (h : Reads input closed behind s₁ m₁ fields fmt s' m') :
      Reads input closed ('%' :: rest) s m (if conv = '%' then fields else spec :: fields) fmt s' m'

theorem getElem?_of_drop_eq_cons {α : Type} {l rest : List α} {n : Nat} {a : α}
    (h : l.drop n = a :: rest) : l[n]? = some a := by
  rw [← Nat.add_zero n, ← List.getElem?_drop, h]
  rfl

theorem drop_succ_of_drop_eq_cons {α : Type} {l rest : List α} {n : Nat} {a : α}
    (h : l.drop n = a :: rest) : l.drop (n + 1) = rest := by
  rw [← List.drop_drop, h]
  rfl

section Run

variable {side : HostSide} {closed : Bool} {m : Machine} {s : ScanState}

theorem stdin_of_scratchOnly {side side' : HostSide} (h : ScratchOnly side side') :
    side'.stdin = side.stdin := by
  obtain ⟨call, rfl⟩ := h
  rfl

/-- Skipped characters are read over. -/
theorem run_scanFrom_skip (first fmt : List Char) (pos : Nat) :
    ∃ pos', (scanFrom pos first.length s (first ++ fmt)).run side closed m =
      (scanFrom pos' 0 s fmt).run side closed m := by
  induction first generalizing pos with
  | nil => exact ⟨pos, rfl⟩
  | cons c first ih => exact ih (pos + c.utf8Size)

theorem isFormatSpace_percent : isFormatSpace '%' = false := by decide

/-- What a conversion comes to, and the card it is noted on. -/
theorem run_scanFrom_conversion {rest : List Char} {spec : ScanSpec} {used : Nat} {conv : Char}
    (hspec : parseScanSpec rest = (spec, used)) (hconv : rest[used]? = some conv) (pos : Nat) :
    ∃ side₁, ScratchOnly side side₁ ∧
      (scanFrom pos 0 s ('%' :: rest)).run side closed m =
        match scanField spec conv side.stdin s.inPos closed with
        | .stalled inPos => (stall inPos s.matched).run side₁ closed m
        | .mismatch inPos => (commit { s.fresh with inPos := inPos }).run side₁ closed m
        | .unknown => (do
            modifyCall fun call => call.updateCurrent fun row => { row with code := callStopped }
            commit s.fresh : Stub HostOutcome).run side₁ closed m
        | .taken stored inPos => (do
            let s' ← takeField spec stored inPos s.fresh
            noteField conv s.inPos m.mem.bytesWritten s'
            scanFrom (pos + 1) (used + 1) s' rest : Stub HostOutcome).run side₁ closed m := by
  let row : Conversion :=
    { (default : Conversion) with
      fmtStart := pos, fmtEnd := pos + 1 + utf8Length (rest.take (used + 1))
      source := argNone, textStart := s.inPos, textEnd := s.inPos, code := callNoMatch }
  refine ⟨{ side with callScratch := side.callScratch.push row }, ⟨_, rfl⟩, ?_⟩
  have hsize : Char.utf8Size '%' = 1 := by decide
  have hlook : (liftM (Exec.look fun m => m.mem.bytesWritten) : Stub Nat).run side closed m =
      (m, side, .ok m.mem.bytesWritten) := by
    rw [Stub.run_liftM]
    rfl
  rw [scanFrom, if_neg (by rw [isFormatSpace_percent]; decide), if_neg (not_not_intro rfl), hspec,
    hsize]
  simp only [hconv]
  rw [Stub.run_bind_ok (Stub.run_look _ _ _ _), Stub.run_bind_ok (Stub.run_stdinClosed _ _ _),
    Stub.run_bind_ok hlook, Stub.run_bind_ok rfl]
  cases scanField spec conv side.stdin s.inPos closed <;> rfl

theorem run_noteField (conv : Char) (fieldFrom written : Nat) :
    ∃ side', ScratchOnly side side' ∧
      (noteField conv fieldFrom written s).run side closed m = (m, side', .ok ()) := by
  have hlook : (liftM (Exec.look Machine.mem) : Stub Memory).run side closed m =
      (m, side, .ok m.mem) := by
    rw [Stub.run_liftM]
    rfl
  unfold noteField
  rw [Stub.run_bind_ok (Stub.run_look _ _ _ _), Stub.run_bind_ok hlook]
  exact ⟨_, ⟨_, rfl⟩, rfl⟩

end Run

namespace Reads

variable {input : List Byte} {closed : Bool} {fmt fmt₁ fmt₂ : List Char} {s s₁ s₂ : ScanState}
  {m m₁ m₂ : Machine} {fields fields' : List ScanSpec}

theorem trans (h : Reads input closed fmt s m fields fmt₁ s₁ m₁)
    (h' : Reads input closed fmt₁ s₁ m₁ fields' fmt₂ s₂ m₂) :
    Reads input closed fmt s m (fields ++ fields') fmt₂ s₂ m₂ := by
  induction h with
  | done => exact h'
  | space hc _ ih => exact .space hc (ih h')
  | literal hc hpercent hb heq _ ih => exact .literal hc hpercent hb heq (ih h')
  | @field _ _ _ _ _ _ _ _ _ _ _ _ conv _ _ hspec hconv hfield htake _ ih =>
      have hstep := field hspec hconv hfield htake (ih h')
      split_ifs at hstep ⊢
      · exact hstep
      · exact hstep

theorem run {side : HostSide} (h : Reads input closed fmt s m fields fmt₁ s₁ m₁)
    (hstdin : side.stdin = input) (pos : Nat) :
    ∃ pos' side', ScratchOnly side side' ∧ (scanFrom pos 0 s fmt).run side closed m =
      (scanFrom pos' 0 s₁ fmt₁).run side' closed m₁ := by
  induction h generalizing pos side with
  | done => exact ⟨pos, side, .refl side, rfl⟩
  | space hc _ ih =>
      obtain ⟨pos', side', hscratch, hrun⟩ := ih hstdin (pos + Char.utf8Size _)
      refine ⟨pos', side', hscratch, ?_⟩
      rw [scanFrom, if_pos hc, Stub.run_bind_ok (Stub.run_look _ _ _ _), hstdin]
      exact hrun
  | literal hc hpercent hb heq _ ih =>
      obtain ⟨pos', side', hscratch, hrun⟩ := ih hstdin (pos + Char.utf8Size _)
      refine ⟨pos', side', hscratch, ?_⟩
      rw [scanFrom, if_neg (by rw [hc]; decide), if_pos hpercent,
        Stub.run_bind_ok (Stub.run_look _ _ _ _), hstdin]
      simp only [hb, heq, ne_eq, not_true_eq_false, if_false]
      exact hrun
  | @field rest behind _ s _ _ m m₁ _ _ spec used conv stored inPos hspec hconv hfield htake _ ih =>
      have hget : rest[used]? = some conv := getElem?_of_drop_eq_cons hconv
      have hbehind : rest.drop (used + 1) = behind := drop_succ_of_drop_eq_cons hconv
      have hused : used < rest.length := (List.getElem?_eq_some_iff.mp hget).1
      have hskip : (rest.take (used + 1)).length = used + 1 := by
        rw [List.length_take]
        omega
      obtain ⟨side₁, hscratch₁, hrun⟩ := run_scanFrom_conversion hspec hget pos
      obtain ⟨side₂, hscratch₂, hnote⟩ := run_noteField conv s.inPos m.mem.bytesWritten
      obtain ⟨pos₂, hskipped⟩ := run_scanFrom_skip (rest.take (used + 1)) behind (pos + 1)
      obtain ⟨pos', side', hscratch, hlast⟩ :=
        ih ((stdin_of_scratchOnly (hscratch₁.trans hscratch₂)).trans hstdin) pos₂
      refine ⟨pos', side', (hscratch₁.trans hscratch₂).trans hscratch, ?_⟩
      rw [hstdin, hfield] at hrun
      rw [hrun]
      simp only []
      rw [Stub.run_bind_ok (by rw [Stub.run_liftM, htake]), Stub.run_bind_ok hnote, ← hlast,
        ← hskipped, hskip, ← hbehind, List.take_append_drop]

theorem fields_le (h : Reads input closed fmt s m fields fmt₁ s₁ m₁) :
    fields.length + fmt₁.length ≤ fmt.length := by
  induction h with
  | done => simp
  | space _ _ ih => exact ih.trans (Nat.le_succ _)
  | literal _ _ _ _ _ ih => exact ih.trans (Nat.le_succ _)
  | @field rest behind _ _ _ _ _ _ _ _ _ used _ _ _ _ hconv _ _ _ ih =>
      have hlen := congrArg List.length hconv
      rw [List.length_drop, List.length_cons] at hlen
      split_ifs
      · rw [List.length_cons]
        omega
      · rw [List.length_cons, List.length_cons]
        omega

theorem length_le (h : Reads input closed fmt s m fields fmt₁ s₁ m₁) :
    fmt₁.length ≤ fmt.length := (Nat.le_add_left _ _).trans h.fields_le

/-- A call that gets as far as a state gets there whatever it does next. -/
theorem linear (h : Reads input closed fmt s m fields fmt₁ s₁ m₁)
    (h' : Reads input closed fmt s m fields' fmt₂ s₂ m₂) (hle : fmt₂.length ≤ fmt₁.length) :
    ∃ more, fields' = fields ++ more ∧ Reads input closed fmt₁ s₁ m₁ more fmt₂ s₂ m₂ := by
  induction h generalizing fields' with
  | done => exact ⟨fields', rfl, h'⟩
  | space hc h ih =>
      cases h' with
      | done => exact absurd h.length_le (by rw [List.length_cons] at hle; omega)
      | space _ h' => exact ih h' hle
      | literal hc' => rw [hc] at hc'; cases hc'
      | field => rw [isFormatSpace_percent] at hc; cases hc
  | literal hc hpercent _ _ h ih =>
      cases h' with
      | done => exact absurd h.length_le (by rw [List.length_cons] at hle; omega)
      | space hc' => rw [hc] at hc'; cases hc'
      | literal _ _ _ _ h' => exact ih h' hle
      | field => exact absurd rfl hpercent
  | field hspec hconv hfield htake h ih =>
      cases h' with
      | done =>
          have hlen := congrArg List.length hconv
          rw [List.length_drop, List.length_cons] at hlen
          rw [List.length_cons] at hle
          exact absurd h.length_le (by omega)
      | space hc => rw [isFormatSpace_percent] at hc; cases hc
      | literal _ hpercent => exact absurd rfl hpercent
      | field hspec' hconv' hfield' htake' h' =>
          cases hspec.symm.trans hspec'
          cases hconv.symm.trans hconv'
          cases hfield.symm.trans hfield'
          cases htake.symm.trans htake'
          obtain ⟨more, rfl, hmore⟩ := ih h' hle
          refine ⟨more, ?_, hmore⟩
          split_ifs <;> rfl

end Reads

end Hosted

end Playground
