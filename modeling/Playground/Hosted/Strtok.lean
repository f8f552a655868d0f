/-
`strtok` over a whole sequence of calls: one cursor kept between them, one token cut out of
the string by each.
-/
import Playground.Hosted.CString
import Playground.Hosted.Memmove
import Playground.Library.Runs

namespace Playground

namespace Hosted

open Exec Memory Runs

/-- A scan that meets neither what it looks for nor a terminator within so many bytes has
been at every address. -/
def addressSpan : Nat := 2 ^ 64

/-- Past the delimiters: where the scan stopped, and whether the string ended there. -/
def skipDelims (delims : List Byte) : Nat → Word → Exec (Word × Bool)
  | 0, cursor => fail (.memoryFault cursor .read)
  | fuel + 1, cursor => do
      let b ← readU8 cursor
      if b = 0 then return (cursor, true)
      else if b ∈ delims then skipDelims delims fuel (cursor + 1)
      else return (cursor, false)

/-- Past the token, which the delimiter after it becomes the terminator of: the cursor for
the next call. -/
def cutToken (delims : List Byte) : Nat → Word → Exec Word
  | 0, cursor => fail (.memoryFault cursor .read)
  | fuel + 1, cursor => do
      let b ← readU8 cursor
      -- at the string's own terminator the cursor stays on it
      if b = 0 then return cursor
      else if b ∈ delims then do
        writeU8 cursor 0
        return cursor + 1
      else cutToken delims fuel (cursor + 1)

/-- The next token of the string in x0, or of the one the cursor is in when x0 is null. -/
def strtok : Stub HostOutcome := do
  let arg ← readGpr 0 true
  let delimPtr ← readGpr 1 true
  let delims ← attempt fun m => readCString m.mem delimPtr "strtok's delimiters"
  let saved ← Stub.look HostSide.strtokSave
  let (start, ended) ← skipDelims delims addressSpan (if arg ≠ 0 then arg else saved)
  if ended then do
    Stub.modify fun side => { side with strtokSave := start }
    answer 0
  else do
    let next ← cutToken delims addressSpan start
    Stub.modify fun side => { side with strtokSave := next }
    answer start

variable {m : Machine} {delims : List Byte}

/-- Whether a byte is one of the delimiters. -/
def isDelim (delims : List Byte) (b : Byte) : Bool := decide (b ∈ delims)

theorem run_skipDelims {cursor : Word} {seps rest : List Byte} {fuel : Nat}
    (h : m.mem.HoldsString cursor (seps ++ rest)) (hseps : ∀ b ∈ seps, isDelim delims b = true)
    (hrest : ∀ b ∈ rest.head?, isDelim delims b = false) (hfuel : seps.length < fuel) :
    (skipDelims delims fuel cursor).run m =
      (m, .ok (cursor + BitVec.ofNat 64 seps.length, rest.isEmpty)) := by
  induction seps generalizing cursor fuel with
  | nil =>
      obtain ⟨fuel, rfl⟩ := Nat.exists_eq_succ_of_ne_zero (Nat.pos_iff_ne_zero.mp hfuel)
      rw [skipDelims, run_bind, Exec.readU8, run_attempt, List.length_nil, BitVec.add_zero]
      cases rest with
      | nil =>
          rw [h.stop]
          rfl
      | cons b rest =>
          have hb : b ≠ 0 := h.nonzero b (by simp)
          have hnot : b ∉ delims := of_decide_eq_false (hrest b rfl)
          rw [h.head]
          simp only [hb, hnot, ↓reduceIte]
          rfl
  | cons b seps ih =>
      obtain ⟨fuel, rfl⟩ := Nat.exists_eq_succ_of_ne_zero (Nat.ne_of_gt (Nat.zero_lt_of_lt hfuel))
      have hb : b ≠ 0 := h.nonzero b (by simp)
      have hmem : b ∈ delims := of_decide_eq_true (hseps b (by simp))
      rw [skipDelims, run_bind, Exec.readU8, run_attempt, h.head]
      simp only [hb, hmem, ↓reduceIte]
      rw [ih h.tail (fun c hc => hseps c (by simp [hc]))
        (Nat.lt_of_succ_lt_succ hfuel), add_one_add_ofNat]
      rfl

/-- A byte other than zero stands on a page, not in a span that reads as zeros. -/
theorem page_of_nonzero {mem : Memory} {addr : Word} {b : Byte} (h : mem.readU8 addr = .ok b)
    (hb : b ≠ 0) : pageBase addr ∈ mem.pages := by
  obtain ⟨-, rfl⟩ := (mem.readU8_eq_ok_iff addr b).mp h
  by_contra hnone
  apply hb
  unfold peek
  rw [Finmap.lookup_eq_none.mpr hnone]

/-- The last token of a string: the cursor stays on the terminator. -/
theorem run_cutToken_last {cursor : Word} {token : List Byte} {fuel : Nat}
    (h : m.mem.HoldsString cursor token) (htoken : ∀ b ∈ token, isDelim delims b = false)
    (hfuel : token.length < fuel) :
    (cutToken delims fuel cursor).run m =
      (m, .ok (cursor + BitVec.ofNat 64 token.length)) := by
  induction token generalizing cursor fuel with
  | nil =>
      obtain ⟨fuel, rfl⟩ := Nat.exists_eq_succ_of_ne_zero (Nat.pos_iff_ne_zero.mp hfuel)
      rw [cutToken, run_bind, Exec.readU8, run_attempt, h.stop, List.length_nil, BitVec.add_zero]
      rfl
  | cons b token ih =>
      obtain ⟨fuel, rfl⟩ := Nat.exists_eq_succ_of_ne_zero (Nat.ne_of_gt (Nat.zero_lt_of_lt hfuel))
      have hb : b ≠ 0 := h.nonzero b (by simp)
      have hnot : b ∉ delims := of_decide_eq_false (htoken b (by simp))
      rw [cutToken, run_bind, Exec.readU8, run_attempt, h.head]
      simp only [hb, hnot, ↓reduceIte]
      rw [ih h.tail (fun c hc => htoken c (by simp [hc]))
        (Nat.lt_of_succ_lt_succ hfuel), add_one_add_ofNat]
      rfl

/-- A token with a delimiter after it. -/
theorem run_cutToken_delim {cursor : Word} {token rest : List Byte} {d : Byte} {fuel : Nat}
    (h : m.mem.HoldsString cursor (token ++ d :: rest))
    (htoken : ∀ b ∈ token, isDelim delims b = false) (hd : isDelim delims d = true)
    (hfuel : token.length < fuel) :
    (m.mem.writeU8 (cursor + BitVec.ofNat 64 token.length) 0).2 = .ok () ∧
    (cutToken delims fuel cursor).run m =
      (MachineCall.run m (.mem (.writeU8 (cursor + BitVec.ofNat 64 token.length) 0)),
        .ok (cursor + BitVec.ofNat 64 (token.length + 1))) := by
  induction token generalizing cursor fuel with
  | nil =>
      obtain ⟨fuel, rfl⟩ := Nat.exists_eq_succ_of_ne_zero (Nat.pos_iff_ne_zero.mp hfuel)
      have hread : m.mem.readU8 cursor = .ok d := h.head
      have hne : d ≠ 0 := h.nonzero d (by simp)
      have hmem : d ∈ delims := of_decide_eq_true hd
      have hwrite : (m.mem.writeU8 cursor 0).2 = .ok () :=
        (writeU8_ok_iff m.mem cursor 0).mpr (.inl (page_of_nonzero hread hne))
      rw [cutToken, run_bind, Exec.readU8, run_attempt, hread, List.length_nil, BitVec.add_zero]
      refine ⟨hwrite, ?_⟩
      simp only [hne, hmem, ↓reduceIte]
      rw [run_bind, Exec.writeU8, run_store, hwrite]
      rfl
  | cons b token ih =>
      obtain ⟨fuel, rfl⟩ := Nat.exists_eq_succ_of_ne_zero (Nat.ne_of_gt (Nat.zero_lt_of_lt hfuel))
      have hb : b ≠ 0 := h.nonzero b (by simp)
      have hnot : b ∉ delims := of_decide_eq_false (htoken b (by simp))
      obtain ⟨hwrite, hrun⟩ := ih h.tail (fun c hc => htoken c (by simp [hc]))
        (Nat.lt_of_succ_lt_succ hfuel)
      rw [add_one_add_ofNat] at hwrite hrun
      rw [add_one_add_ofNat] at hrun
      refine ⟨hwrite, ?_⟩
      rw [cutToken, run_bind, Exec.readU8, run_attempt, h.head]
      simp only [hb, hnot, ↓reduceIte]
      exact hrun

/-- What a call finds besides the cursor and memory. -/
structure Setting where
  side : HostSide
  closed : Bool
  regs : RegisterFile
  heap : HeapState

/-- One call of `strtok`: the cursor and the memory it leaves, how it ended and its x0. -/
def tokenCall (c : Setting) (save : Word) (mem : Memory) :
    (Word × Memory) × Except EmuError (HostOutcome × Word) :=
  let (m, side, outcome) :=
    strtok.run { c.side with strtokSave := save } c.closed ⟨c.regs, mem, c.heap⟩
  ((side.strtokSave, m.mem), outcome.map fun outcome => (outcome, m.regs.gprValue 0 true))

/-- A sequence of calls, each with the answer and the memory it leaves. -/
def tokenCalls : List Setting → Word → Memory →
    List (Except EmuError (HostOutcome × Word) × Memory)
  | [], _, _ => []
  | c :: calls, save, mem =>
      let ((save, mem), result) := tokenCall c save mem
      (result, mem) :: tokenCalls calls save mem

/-- `strtok` once it has read its arguments. -/
def nextToken (delims : List Byte) (cursor : Word) : Stub HostOutcome := do
  let (start, ended) ← skipDelims delims addressSpan cursor
  if ended then do
    Stub.modify fun side => { side with strtokSave := start }
    answer 0
  else do
    let next ← cutToken delims addressSpan start
    Stub.modify fun side => { side with strtokSave := next }
    answer start

/-- Reading the arguments leaves memory and the side state. -/
theorem run_strtok (side : HostSide) (closed : Bool) (m : Machine) :
    ∃ regs, strtok.run side closed m =
      match readCString m.mem (m.regs.gprValue 1 true) "strtok's delimiters" with
      | .error e => ({ m with regs := regs }, side, .error e)
      | .ok delims =>
          (nextToken delims (if m.regs.gprValue 0 true ≠ 0 then m.regs.gprValue 0 true
            else side.strtokSave)).run side closed { m with regs := regs } := by
  refine ⟨(MachineCall.run (MachineCall.run m (.reg (.readGpr 0 true)))
    (.reg (.readGpr 1 true))).regs, ?_⟩
  rw [strtok, Stub.run_bind, Stub.run_liftM, run_readGpr]
  simp only
  rw [Stub.run_bind, Stub.run_liftM, run_readGpr]
  simp only [gprValue_run_readGpr]
  rw [Stub.run_bind, Stub.run_liftM, run_attempt]
  have hmem : (MachineCall.run (MachineCall.run m (.reg (.readGpr 0 true)))
    (.reg (.readGpr 1 true))).mem = m.mem := rfl
  rw [hmem]
  cases readCString m.mem (m.regs.gprValue 1 true) "strtok's delimiters" with
  | error e => rfl
  | ok delims =>
      simp only
      rw [Stub.run_bind, Stub.run_look]
      rfl

section Call

variable {cursor : Word} {seps token rest : List Byte} (side : HostSide) (closed : Bool)

/-- Only delimiters are left. -/
theorem run_nextToken_spent (h : m.mem.HoldsString cursor seps)
    (hseps : ∀ b ∈ seps, isDelim delims b = true) :
    ∃ m', (nextToken delims cursor).run side closed m =
        (m', { side with strtokSave := cursor + BitVec.ofNat 64 seps.length }, .ok .continue) ∧
      m'.regs.gprValue 0 true = 0 ∧ m'.mem = m.mem := by
  have hstring : m.mem.HoldsString cursor (seps ++ []) := by rwa [List.append_nil]
  have hfuel : seps.length < addressSpan := h.length_lt
  have hskip := run_skipDelims hstring hseps (by simp) hfuel
  refine ⟨((answer 0).run m).1, ?_, gprValue_answer 0 m, rfl⟩
  rw [nextToken, Stub.run_bind, Stub.run_liftM, hskip]
  rfl

theorem length_lt_of_append {a b : List Byte} (h : m.mem.HoldsString cursor (a ++ b)) :
    a.length < addressSpan ∧ b.length < addressSpan := by
  have hlen := h.length_lt
  rw [List.length_append] at hlen
  unfold addressSpan
  omega

theorem run_nextToken_last (h : m.mem.HoldsString cursor (seps ++ token))
    (hseps : ∀ b ∈ seps, isDelim delims b = true) (hne : token ≠ [])
    (htoken : ∀ b ∈ token, isDelim delims b = false) :
    ∃ m', (nextToken delims cursor).run side closed m =
        (m', { side with strtokSave :=
          cursor + BitVec.ofNat 64 (seps.length + token.length) }, .ok .continue) ∧
      m'.regs.gprValue 0 true = cursor + BitVec.ofNat 64 seps.length ∧ m'.mem = m.mem := by
  obtain ⟨hlen, hlen'⟩ := length_lt_of_append h
  obtain ⟨b, token, rfl⟩ := List.exists_cons_of_ne_nil hne
  have hskip := run_skipDelims h hseps (fun c hc => htoken c (List.mem_of_head? hc)) hlen
  have hdrop := h.drop (n := seps.length) (by simp)
  rw [List.drop_left] at hdrop
  have hcut := run_cutToken_last hdrop htoken hlen'
  refine ⟨((answer (cursor + BitVec.ofNat 64 seps.length)).run m).1, ?_, gprValue_answer _ m, rfl⟩
  rw [nextToken, Stub.run_bind, Stub.run_liftM, hskip]
  simp only [List.isEmpty_cons, Bool.false_eq_true, ↓reduceIte]
  rw [Stub.run_bind, Stub.run_liftM, hcut]
  simp only
  rw [BitVec.add_assoc, ← BitVec.ofNat_add]
  rfl

/-- A delimiter follows the token. -/
theorem run_nextToken_delim {d : Byte}
    (h : m.mem.HoldsString cursor (seps ++ (token ++ d :: rest)))
    (hseps : ∀ b ∈ seps, isDelim delims b = true) (hne : token ≠ [])
    (htoken : ∀ b ∈ token, isDelim delims b = false) (hd : isDelim delims d = true) :
    ∃ m', (nextToken delims cursor).run side closed m =
        (m', { side with strtokSave :=
          cursor + BitVec.ofNat 64 (seps.length + token.length + 1) }, .ok .continue) ∧
      m'.regs.gprValue 0 true = cursor + BitVec.ofNat 64 seps.length ∧
      Written m.mem (cursor + BitVec.ofNat 64 (seps.length + token.length)) [0] m'.mem := by
  obtain ⟨hlen, hlen'⟩ := length_lt_of_append h
  rw [List.length_append] at hlen'
  have hskip := run_skipDelims h hseps (by
    obtain ⟨b, token, rfl⟩ := List.exists_cons_of_ne_nil hne
    exact fun c hc => htoken c (List.mem_of_head? hc)) hlen
  have hdrop := h.drop (n := seps.length) (by simp)
  rw [List.drop_left] at hdrop
  have hfuel : token.length < addressSpan := by omega
  obtain ⟨hwrite, hcut⟩ := run_cutToken_delim hdrop htoken hd hfuel
  rw [BitVec.add_assoc, ← BitVec.ofNat_add] at hwrite hcut
  rw [BitVec.add_assoc, ← BitVec.ofNat_add, ← Nat.add_assoc] at hcut
  have hempty : (token ++ d :: rest).isEmpty = false := by
    cases token with
    | nil => rfl
    | cons b token => rfl
  refine ⟨((answer (cursor + BitVec.ofNat 64 seps.length)).run (MachineCall.run m (.mem
    (.writeU8 (cursor + BitVec.ofNat 64 (seps.length + token.length)) 0)))).1, ?_,
    gprValue_answer _ _, written_writeU8 hwrite⟩
  rw [nextToken, Stub.run_bind, Stub.run_liftM, hskip, hempty]
  simp only [Bool.false_eq_true, ↓reduceIte]
  rw [Stub.run_bind, Stub.run_liftM, hcut]
  rfl

end Call

end Hosted

namespace Memory

/-- A write elsewhere leaves a string. -/
theorem HoldsString.of_written {m m' : Memory} {addr a : Word} {s : List Byte} {b : Byte}
    (h : m.HoldsString addr s) (hwritten : Written m a [b] m')
    (hne : ∀ i ≤ s.length, addr + BitVec.ofNat 64 i ≠ a) : m'.HoldsString addr s := by
  refine ⟨fun i byte hbyte => ?_, h.nonzero⟩
  have hi := (List.getElem?_eq_some_iff.mp hbyte).1
  rw [List.length_append, List.length_singleton] at hi
  refine hwritten.readU8 ?_ (h.holds i byte hbyte)
  refine Nat.pos_iff_ne_zero.mpr fun hzero => hne i (by omega) ?_
  have hsub : addr + BitVec.ofNat 64 i - a = 0 := BitVec.eq_of_toNat_eq hzero
  exact sub_eq_zero.mp hsub

theorem HoldsString.cut {m m' : Memory} {addr : Word} {s rest : List Byte} {d : Byte}
    (h : m.HoldsString addr (s ++ d :: rest))
    (hwritten : Written m (addr + BitVec.ofNat 64 s.length) [0] m') : m'.HoldsString addr s := by
  have hlen := h.length_lt
  rw [List.length_append, List.length_cons] at hlen
  refine ⟨fun i byte hbyte => ?_, fun b hb => h.nonzero b (by simp [hb])⟩
  have hi := (List.getElem?_eq_some_iff.mp hbyte).1
  rw [List.length_append, List.length_singleton] at hi
  rcases Nat.lt_or_eq_of_le (Nat.le_of_lt_succ hi) with hin | rfl
  · rw [List.getElem?_append_left hin] at hbyte
    refine hwritten.readU8 ?_ (h.readU8 (by rwa [List.getElem?_append_left hin]))
    refine Nat.pos_iff_ne_zero.mpr fun hzero => ?_
    have hsub : addr + BitVec.ofNat 64 i - (addr + BitVec.ofNat 64 s.length) = 0 :=
      BitVec.eq_of_toNat_eq hzero
    have heq := congrArg BitVec.toNat (add_left_cancel (sub_eq_zero.mp hsub))
    rw [BitVec.toNat_ofNat, BitVec.toNat_ofNat] at heq
    omega
  · have hzero := hwritten.holds (by simp) 0 0 rfl
    rw [BitVec.add_zero] at hzero
    simp only [List.getElem?_concat_length, Option.some.injEq] at hbyte
    subst hbyte
    exact hzero

end Memory

namespace Hosted

open Exec Memory Runs

section Sequence

variable {s d : Word} {S D : List Byte}

/-- The string from the cursor on and the delimiters are still there. -/
structure Tokenizing (s d : Word) (S D : List Byte) (q : Nat) (mem : Memory) : Prop where
  le : q ≤ S.length
  rest : mem.HoldsString (s + BitVec.ofNat 64 q) (S.drop q)
  delims : mem.HoldsString d D

/-- The token stands at its place, and no later call writes over it. -/
def Settled (s : Word) (S : List Byte) (q : Nat) (mem : Memory) (t : Nat × List Byte) : Prop :=
  mem.HoldsString (s + BitVec.ofNat 64 t.1) t.2 ∧
    (t.1 + t.2.length < q ∨ t.1 + t.2.length = q ∧ q = S.length)

/-- What one call did: it answered with the first run from the cursor on, if there is one,
and moved the cursor past it. -/
structure Cuts (s d : Word) (S D : List Byte) (q : Nat) (mem : Memory) (q' : Nat) (mem' : Memory)
    (token : Option (Nat × List Byte)) : Prop where
  next : Tokenizing s d S D q' mem'
  runs_eq : runs (isDelim D) q (S.drop q) = token.toList ++ runs (isDelim D) q' (S.drop q')
  spent : token = none → q' = S.length
  cut : ∀ t ∈ token, Settled s S q' mem' t
  keeps : ∀ t, Settled s S q mem t → Settled s S q' mem' t

def tokenAddress (s : Word) (token : Option (Nat × List Byte)) : Word :=
  match token with
  | some t => s + BitVec.ofNat 64 t.1
  | none => 0

theorem settled_of_le {q q' : Nat} {mem : Memory} {t : Nat × List Byte} (h : Settled s S q mem t)
    (hle : q ≤ q') (hle' : q' ≤ S.length) : Settled s S q' mem t := by
  obtain ⟨hholds, hlt | ⟨heq, hend⟩⟩ := h
  · exact ⟨hholds, .inl (by omega)⟩
  · exact ⟨hholds, .inr ⟨by omega, by omega⟩⟩

theorem offset_ne {i j : Nat} (hi : i < 2 ^ 64) (hj : j < 2 ^ 64) (hne : i ≠ j) :
    s + BitVec.ofNat 64 i ≠ s + BitVec.ofNat 64 j := by
  intro h
  have heq := congrArg BitVec.toNat (add_left_cancel h)
  rw [BitVec.toNat_ofNat, BitVec.toNat_ofNat, Nat.mod_eq_of_lt hi, Nat.mod_eq_of_lt hj] at heq
  exact hne heq

/-- One call cuts the next token. -/
theorem exists_cuts {q : Nat} {m : Machine} (h : Tokenizing s d S D q m.mem)
    (hlen : S.length < 2 ^ 64)
    (hapart : ∀ i ≤ S.length, ∀ j ≤ D.length, s + BitVec.ofNat 64 i ≠ d + BitVec.ofNat 64 j)
    (side : HostSide) (closed : Bool) :
    ∃ m' q' token, (nextToken D (s + BitVec.ofNat 64 q)).run side closed m =
        (m', { side with strtokSave := s + BitVec.ofNat 64 q' }, .ok .continue) ∧
      m'.regs.gprValue 0 true = tokenAddress s token ∧ Cuts s d S D q m.mem q' m'.mem token := by
  obtain ⟨seps, r, rest, hsplit, hseps, hr, hrest, hlast⟩ := exists_split (isDelim D) (S.drop q)
  have hq := h.le
  have hsize := congrArg List.length hsplit
  rw [List.length_drop, List.length_append, List.length_append] at hsize
  have hstring := h.rest
  rw [hsplit] at hstring
  have hdrop : ∀ n, S.drop (q + n) = (seps ++ (r ++ rest)).drop n := by
    intro n
    rw [← hsplit, List.drop_drop]
  by_cases hnone : r = []
  · subst hnone
    obtain rfl := hlast rfl
    simp only [List.append_nil, List.length_nil, Nat.add_zero] at hstring hsize hsplit
    obtain ⟨m', hrun, hx0, hmem⟩ := run_nextToken_spent side closed hstring hseps
    have hend : q + seps.length = S.length := by omega
    rw [BitVec.add_assoc, ← BitVec.ofNat_add, hend] at hrun
    refine ⟨m', S.length, none, hrun, hx0, ⟨⟨le_rfl, ?_, hmem ▸ h.delims⟩, ?_, fun _ => rfl,
      by simp, fun t ht => ?_⟩⟩
    · have htail := h.rest.drop (n := seps.length) (by rw [List.length_drop]; omega)
      rw [List.drop_drop, BitVec.add_assoc, ← BitVec.ofNat_add, hend] at htail
      rw [hmem]
      exact htail
    · rw [hsplit, ← List.append_nil seps, runs_append_seps hseps]
      simp
    · rw [hmem]
      exact settled_of_le ht hq le_rfl
  · have hpos := List.length_pos_iff.mpr hnone
    cases rest with
    | nil =>
        simp only [List.append_nil, List.length_nil, Nat.add_zero] at hstring hsize hsplit
        obtain ⟨m', hrun, hx0, hmem⟩ := run_nextToken_last side closed hstring hseps hnone hr
        have hend : q + (seps.length + r.length) = S.length := by omega
        rw [BitVec.add_assoc, ← BitVec.ofNat_add, hend] at hrun
        rw [BitVec.add_assoc, ← BitVec.ofNat_add] at hx0
        have htoken := hstring.drop (n := seps.length) (by simp)
        rw [List.drop_left, BitVec.add_assoc, ← BitVec.ofNat_add] at htoken
        refine ⟨m', S.length, some (q + seps.length, r), hrun, hx0,
          ⟨⟨le_rfl, ?_, hmem ▸ h.delims⟩, ?_, by simp, ?_, fun t ht => ?_⟩⟩
        · have htail := h.rest.drop (n := seps.length + r.length) (by
            rw [List.length_drop]; omega)
          rw [List.drop_drop, BitVec.add_assoc, ← BitVec.ofNat_add, hend] at htail
          rw [hmem]
          exact htail
        · have hend : Separated (isDelim D) [] := by simp [Separated]
          have hruns := runs_append hnone hr hend (q + seps.length)
          rw [List.append_nil] at hruns
          rw [hsplit, runs_append_seps hseps, hruns]
          simp
        · intro t ht
          obtain rfl := Option.some.inj ht
          rw [hmem]
          exact ⟨htoken, .inr ⟨by simp only; omega, rfl⟩⟩
        · rw [hmem]
          exact settled_of_le ht hq le_rfl
    | cons b rest =>
        have hb : isDelim D b = true := hrest b rfl
        rw [List.length_cons] at hsize
        obtain ⟨m', hrun, hx0, hwritten⟩ :=
          run_nextToken_delim side closed hstring hseps hnone hr hb
        rw [BitVec.add_assoc, ← BitVec.ofNat_add] at hrun hx0 hwritten
        have htoken := hstring.drop (n := seps.length) (by simp)
        rw [List.drop_left, BitVec.add_assoc, ← BitVec.ofNat_add] at htoken
        have hkept : ∀ {addr : Word} {str : List Byte}, m.mem.HoldsString addr str →
            (∀ i ≤ str.length, addr + BitVec.ofNat 64 i ≠
              s + BitVec.ofNat 64 (q + (seps.length + r.length))) →
            m'.mem.HoldsString addr str := fun hstr hne => hstr.of_written hwritten hne
        have htail := h.rest.drop (n := seps.length + r.length + 1) (by
          rw [List.length_drop]; omega)
        have hrestEq : S.drop (q + (seps.length + r.length + 1)) = rest := by
          have hfront : seps ++ (r ++ b :: rest) = (seps ++ r ++ [b]) ++ rest := by simp
          rw [hdrop, hfront, List.drop_left' (by simp [Nat.add_assoc])]
        rw [List.drop_drop, BitVec.add_assoc, ← BitVec.ofNat_add] at htail
        refine ⟨m', q + (seps.length + r.length + 1), some (q + seps.length, r), hrun, hx0,
          ⟨⟨by omega, hkept htail ?_, hkept h.delims ?_⟩, ?_, by simp, ?_, fun t ht => ?_⟩⟩
        · intro i hi
          rw [List.length_drop] at hi
          rw [BitVec.add_assoc, ← BitVec.ofNat_add]
          exact offset_ne (by omega) (by omega) (by omega)
        · intro j hj heq
          exact hapart _ (by omega) j hj heq.symm
        · have hruns := runs_append hnone hr hrest (q + seps.length)
          rw [hrestEq, hsplit, runs_append_seps hseps, hruns, runs_cons_sep hb]
          simp only [Option.toList_some, List.singleton_append]
          congr 2
          omega
        · intro t ht
          obtain rfl := Option.some.inj ht
          refine ⟨htoken.cut ?_, .inl (by simp only; omega)⟩
          rw [BitVec.add_assoc, ← BitVec.ofNat_add, Nat.add_assoc]
          exact hwritten
        · obtain ⟨hholds, hplace⟩ := ht
          have hlt : t.1 + t.2.length < q + (seps.length + r.length + 1) := by
            rcases hplace with hlt | ⟨heq, hend⟩ <;> omega
          refine ⟨hkept hholds fun i hi => ?_, .inl hlt⟩
          rw [BitVec.add_assoc, ← BitVec.ofNat_add]
          refine offset_ne (by omega) (by omega) ?_
          rcases hplace with hlt | ⟨heq, hend⟩ <;> omega

/-- The calls after a state of the tokenizing: each answers with its run, or null once
there are no more, and the runs answered so far stand at their places. -/
theorem tokenCalls_cut {calls : List Setting} {q : Nat} {save : Word} {mem : Memory}
    (h : Tokenizing s d S D q mem) (hlen : S.length < 2 ^ 64)
    (hdelims : D.length < maxPrintfCallBytes)
    (hapart : ∀ i ≤ S.length, ∀ j ≤ D.length, s + BitVec.ofNat 64 i ≠ d + BitVec.ofNat 64 j)
    (hx1 : ∀ c ∈ calls, c.regs.gprValue 1 true = d)
    (hfirst : ∀ c ∈ calls.head?, (if c.regs.gprValue 0 true ≠ 0 then c.regs.gprValue 0 true
      else save) = s + BitVec.ofNat 64 q)
    (hlater : ∀ c ∈ calls.tail, c.regs.gprValue 0 true = 0) (k : Nat)
    {result : Except EmuError (HostOutcome × Word)} {mem' : Memory}
    (hk : (tokenCalls calls save mem)[k]? = some (result, mem')) :
    result = .ok (.continue, tokenAddress s (runs (isDelim D) q (S.drop q))[k]?) ∧
      ∃ q' ≤ S.length, (∀ t, Settled s S q mem t → Settled s S q' mem' t) ∧
        ∀ i ≤ k, ∀ t ∈ (runs (isDelim D) q (S.drop q))[i]?, Settled s S q' mem' t := by
  induction calls generalizing q save mem k with
  | nil => cases hk
  | cons c calls ih =>
      have hread := readCString_of_holds h.delims hdelims "strtok's delimiters"
      obtain ⟨regs, hrun⟩ := run_strtok { c.side with strtokSave := save } c.closed
        ⟨c.regs, mem, c.heap⟩
      have hcursor := hfirst c rfl
      simp only [hx1 c (by simp), hread, hcursor] at hrun
      obtain ⟨m', q', token, hnext, hx0, hcuts⟩ := exists_cuts (m := ⟨regs, mem, c.heap⟩)
        h hlen hapart { c.side with strtokSave := save } c.closed
      have hcall : tokenCall c save mem = ((s + BitVec.ofNat 64 q', m'.mem),
          .ok (.continue, tokenAddress s token)) := by
        unfold tokenCall
        rw [hrun, hnext]
        simp only [hx0]
        rfl
      rw [tokenCalls, hcall] at hk
      simp only at hk
      have hzero : (runs (isDelim D) q (S.drop q))[0]? = token := by
        rw [hcuts.runs_eq]
        cases token with
        | some t => rfl
        | none => simp [hcuts.spent rfl]
      have hsucc : ∀ i, (runs (isDelim D) q (S.drop q))[i + 1]? =
          (runs (isDelim D) q' (S.drop q'))[i]? := by
        intro i
        rw [hcuts.runs_eq]
        cases token with
        | some t => rfl
        | none => simp [hcuts.spent rfl]
      cases k with
      | zero =>
          obtain ⟨rfl, rfl⟩ := Prod.mk.inj (Option.some.inj hk)
          rw [hzero]
          refine ⟨rfl, q', hcuts.next.le, hcuts.keeps, fun i hi t ht => ?_⟩
          obtain rfl : i = 0 := by omega
          rw [hzero] at ht
          exact hcuts.cut t ht
      | succ k =>
          obtain ⟨hresult, q'', hle, hkeeps, hdone⟩ := ih hcuts.next
            (fun c' hc' => hx1 c' (by simp [hc']))
            (fun c' hc' => by rw [if_neg (by simp [hlater c' (List.mem_of_head? hc')])])
            (fun c' hc' => hlater c' (List.mem_of_mem_tail hc')) k hk
          rw [hsucc]
          refine ⟨hresult, q'', hle, fun t ht => hkeeps t (hcuts.keeps t ht), fun i hi t ht => ?_⟩
          cases i with
          | zero =>
              rw [hzero] at ht
              exact hkeeps t (hcuts.cut t ht)
          | succ i =>
              rw [hsucc] at ht
              exact hdone i (by omega) t ht

/-- A string and the delimiters it is cut at, apart from each other in memory. -/
structure Tokenizes (mem : Memory) (s d : Word) (S D : List Byte) : Prop where
  string : mem.HoldsString s S
  delims : mem.HoldsString d D
  notNull : s ≠ 0
  short : D.length < maxPrintfCallBytes
  apart : ∀ i ≤ S.length, ∀ j ≤ D.length, s + BitVec.ofNat 64 i ≠ d + BitVec.ofNat 64 j

/-- A first call with the string and calls after it with null, all with the delimiters. -/
structure Continues (s d : Word) (first : Setting) (later : List Setting) : Prop where
  string : first.regs.gprValue 0 true = s
  null : ∀ c ∈ later, c.regs.gprValue 0 true = 0
  delims : ∀ c ∈ first :: later, c.regs.gprValue 1 true = d

/-- The calls return the runs of the string between delimiters, in order and where they
stand, and null from then on. -/
theorem tokenCalls_runs {mem : Memory} (h : Tokenizes mem s d S D) {first : Setting}
    {later : List Setting} (hcalls : Continues s d first later) (save : Word) (k : Nat)
    {result : Except EmuError (HostOutcome × Word)} {mem' : Memory}
    (hk : (tokenCalls (first :: later) save mem)[k]? = some (result, mem')) :
    result = .ok (.continue, tokenAddress s (runs (isDelim D) 0 S)[k]?) ∧
      ∀ i ≤ k, ∀ t ∈ (runs (isDelim D) 0 S)[i]?,
        mem'.HoldsString (s + BitVec.ofNat 64 t.1) t.2 := by
  have hstart : Tokenizing s d S D 0 mem :=
    ⟨Nat.zero_le _, by rw [BitVec.add_zero]; exact h.string, h.delims⟩
  have hcursor : ∀ c ∈ (first :: later).head?, (if c.regs.gprValue 0 true ≠ 0 then
      c.regs.gprValue 0 true else save) = s + BitVec.ofNat 64 0 := by
    intro c hc
    obtain rfl := Option.some.inj hc
    rw [hcalls.string, if_pos h.notNull, BitVec.add_zero]
  obtain ⟨hresult, q', -, -, hsettled⟩ := tokenCalls_cut hstart h.string.length_lt h.short h.apart
    hcalls.delims hcursor hcalls.null k hk
  exact ⟨hresult, fun i hi t ht => (hsettled i hi t ht).1⟩

end Sequence

/-- `memmove` moves the bytes of its source whether or not the two ranges overlap, and
`strtok` cuts a string into its runs between delimiters. -/
theorem memmove_strtok :
    (∀ (m : Machine) (dst src : Word) (n : Nat), m.regs.gprValue 0 true = dst →
      m.regs.gprValue 1 true = src → (m.regs.gprValue 2 true).toNat = n →
      src.toNat + n ≤ 2 ^ 64 → dst.toNat + n ≤ 2 ^ 64 →
      (∀ i < n, m.mem.isMapped (src + BitVec.ofNat 64 i) = true) → m.mem.Room dst n →
      ∃ m', memmove.run m = (m', .ok .continue) ∧ Moves m m' dst src n) ∧
    (∀ (mem : Memory) (s d : Word) (S D : List Byte), Tokenizes mem s d S D →
      ∀ (first : Setting) (later : List Setting), Continues s d first later →
      ∀ (save : Word) (k : Nat) (result : Except EmuError (HostOutcome × Word)) (mem' : Memory),
        (tokenCalls (first :: later) save mem)[k]? = some (result, mem') →
        result = .ok (.continue, tokenAddress s (runs (isDelim D) 0 S)[k]?) ∧
          ∀ i ≤ k, ∀ t ∈ (runs (isDelim D) 0 S)[i]?,
            mem'.HoldsString (s + BitVec.ofNat 64 t.1) t.2) :=
  ⟨fun _ _ _ _ hdst hsrc hn hsrcEnd hdstEnd hmapped hroom =>
      memmove_moves hdst hsrc hn hsrcEnd hdstEnd hmapped hroom,
    fun _ _ _ _ _ h _ _ hcalls save k _ _ hk => tokenCalls_runs h hcalls save k hk⟩

section Long

def filledPages (base : Word) (b : Byte) : Nat → Pages
  | 0 => ∅
  | n + 1 => (filledPages base b n).insert (base + BitVec.ofNat 64 (n * 4096)) fun _ => b

theorem lookup_filledPages {base : Word} {b : Byte} {n k : Nat} (hk : k < n) (hn : n ≤ 256) :
    (filledPages base b n).lookup (base + BitVec.ofNat 64 (k * 4096)) = some fun _ => b := by
  induction n with
  | zero => omega
  | succ n ih =>
      rw [filledPages]
      rcases Nat.lt_or_eq_of_le (Nat.le_of_lt_succ hk) with hlt | rfl
      · have hne : base + BitVec.ofNat 64 (k * 4096) ≠ base + BitVec.ofNat 64 (n * 4096) := by
          apply offset_ne <;> omega
        rw [Finmap.lookup_insert_of_ne _ hne]
        exact ih hlt (by omega)
      · exact Finmap.lookup_insert _

/-- The string "a", and delimiters that are a mebibyte of 'x's. -/
def longDelims : Memory :=
  { Memory.new with
    pages := ((filledPages 0x500000 0x78 256).insert 0x600000 zeroPage).insert 0x700000
      fun off => if off = 0 then 0x61 else 0 }

theorem readU8_longDelims {i : Nat} (hi : i < maxPrintfCallBytes) :
    longDelims.readU8 (0x500000 + BitVec.ofNat 64 i) = .ok 0x78 := by
  unfold maxPrintfCallBytes at hi
  have hbase : pageBase (0x500000 + BitVec.ofNat 64 i) =
      0x500000 + BitVec.ofNat 64 (i / 4096 * 4096) := by
    apply BitVec.eq_of_toNat_eq
    rw [pageBase_toNat, BitVec.toNat_add, BitVec.toNat_add, BitVec.toNat_ofNat, BitVec.toNat_ofNat]
    have hfive : (0x500000 : Word).toNat = 0x500000 := rfl
    omega
  have hlookup : longDelims.pages.lookup (pageBase (0x500000 + BitVec.ofNat 64 i)) =
      some fun _ => 0x78 := by
    have hlt : (pageBase (0x500000 + BitVec.ofNat 64 i)).toNat < 0x600000 := by
      rw [pageBase_toNat, BitVec.toNat_add, BitVec.toNat_ofNat]
      have hfive : (0x500000 : Word).toNat = 0x500000 := rfl
      omega
    have hne : ∀ base : Word, 0x600000 ≤ base.toNat →
        pageBase (0x500000 + BitVec.ofNat 64 i) ≠ base := by
      rintro base hle rfl
      omega
    unfold longDelims
    rw [Finmap.lookup_insert_of_ne _ (hne 0x700000 (by decide)),
      Finmap.lookup_insert_of_ne _ (hne 0x600000 (by decide)), hbase,
      lookup_filledPages (by omega) (by omega)]
  unfold Memory.readU8 getPage
  rw [hlookup]
  rfl

theorem holdsString_longDelims :
    longDelims.HoldsString 0x500000 (List.replicate maxPrintfCallBytes 0x78) := by
  refine ⟨fun i byte hbyte => ?_, fun b hb => ?_⟩
  · rcases Nat.lt_or_ge i maxPrintfCallBytes with hin | hout
    · rw [List.getElem?_append_left (by simpa using hin), List.getElem?_replicate,
        if_pos hin] at hbyte
      obtain rfl := Option.some.inj hbyte
      exact readU8_longDelims hin
    · rw [List.getElem?_append_right (by simpa using hout), List.length_replicate] at hbyte
      have hend : i = maxPrintfCallBytes := by
        have := (List.getElem?_eq_some_iff.mp hbyte).1
        simp only [List.length_singleton] at this
        omega
      subst hend
      simp only [Nat.sub_self, List.getElem?_cons_zero, Option.some.injEq] at hbyte
      subst hbyte
      decide +kernel
  · rw [List.eq_of_mem_replicate hb]
    decide

/-- A setting whose registers hold the string and the delimiters. -/
def tokenSetting (s d : Word) : Setting where
  side := HostSide.idle
  closed := false
  regs := (RegisterFile.new.writeGpr 0 true s).writeGpr 1 true d
  heap := HeapState.new

theorem lookup_longDelims : longDelims.pages.lookup 0x700000 =
    some fun off => if off = 0 then 0x61 else 0 := by
  unfold longDelims
  rw [Finmap.lookup_insert]

theorem holdsString_a : longDelims.HoldsString 0x700000 [0x61] := by
  refine ⟨fun i byte hbyte => ?_, by decide⟩
  have hi : i < 2 := (List.getElem?_eq_some_iff.mp hbyte).1
  have hbase : ∀ j < 2, pageBase (0x700000 + BitVec.ofNat 64 j) = 0x700000 := by decide
  unfold Memory.readU8 getPage
  rw [hbase i hi, lookup_longDelims]
  interval_cases i <;> obtain rfl := Option.some.inj hbyte <;> rfl

/-- Delimiters that cannot be read stop the call. -/
theorem tokenCall_error {c : Setting} {mem : Memory} {e : EmuError} (save : Word)
    (h : readCString mem (c.regs.gprValue 1 true) "strtok's delimiters" = .error e) :
    (tokenCall c save mem).2 = .error e := by
  obtain ⟨regs, hrun⟩ := run_strtok { c.side with strtokSave := save } c.closed
    ⟨c.regs, mem, c.heap⟩
  simp only [h] at hrun
  unfold tokenCall
  rw [hrun]
  rfl

/-- A string apart from a mebibyte of delimiters is not cut: the call stops. -/
theorem not_tokenCall_long :
    longDelims.HoldsString 0x700000 [0x61] ∧
    longDelims.HoldsString 0x500000 (List.replicate maxPrintfCallBytes 0x78) ∧
    (∀ i ≤ 1, ∀ j ≤ maxPrintfCallBytes,
      (0x700000 : Word) + BitVec.ofNat 64 i ≠ 0x500000 + BitVec.ofNat 64 j) ∧
    (tokenCall (tokenSetting 0x700000 0x500000) 0 longDelims).2 =
      .error (unterminated "strtok's delimiters" 0x500000) := by
  refine ⟨holdsString_a, holdsString_longDelims, fun i hi j hj h => ?_, ?_⟩
  · have heq := congrArg BitVec.toNat h
    have hfive : (0x500000 : Word).toNat = 0x500000 := rfl
    have hseven : (0x700000 : Word).toNat = 0x700000 := rfl
    unfold maxPrintfCallBytes at hj
    rw [BitVec.toNat_add, BitVec.toNat_add, BitVec.toNat_ofNat, BitVec.toNat_ofNat] at heq
    omega
  · have hx1 : (tokenSetting 0x700000 0x500000).regs.gprValue 1 true = 0x500000 := by
      decide
    apply tokenCall_error
    rw [hx1]
    exact readCString_of_long holdsString_longDelims List.length_replicate.ge _

end Long

section Text

/-- ",ab,c" and the delimiter "," after it. -/
def tokenText : List Byte := [0x2C, 0x61, 0x62, 0x2C, 0x63, 0, 0x2C, 0]

/-- The text moved up by one byte over itself, and its first token. -/
theorem memmove_strtok_text :
    (∃ m', memmove.run ⟨((RegisterFile.new.writeGpr 0 true 0x500001).writeGpr 1 true
        0x500000).writeGpr 2 true 5, textMemory tokenText, HeapState.new⟩ = (m', .ok .continue) ∧
      Moves ⟨((RegisterFile.new.writeGpr 0 true 0x500001).writeGpr 1 true
        0x500000).writeGpr 2 true 5, textMemory tokenText, HeapState.new⟩ m' 0x500001 0x500000 5) ∧
    ∃ mem', (tokenCalls [tokenSetting 0x500000 0x500006] 0 (textMemory tokenText))[0]? =
        some (.ok (.continue, 0x500001), mem') ∧ mem'.HoldsString 0x500001 [0x61, 0x62] := by
  have hstring : (textMemory tokenText).HoldsString 0x500000 [0x2C, 0x61, 0x62, 0x2C, 0x63] :=
    ⟨holds_of_readEach (n := 6) (by decide), by decide⟩
  have hdelims : (textMemory tokenText).HoldsString 0x500006 [0x2C] :=
    ⟨holds_of_readEach (n := 2) (by decide), by decide⟩
  have hruns : runs (isDelim [0x2C]) 0 [0x2C, 0x61, 0x62, 0x2C, 0x63] =
      [(1, [0x61, 0x62]), (4, [0x63])] := by decide
  constructor
  · exact memmove_strtok.1 _ _ _ _ (by decide) (by decide) (by decide)
      (by decide) (by decide) (by decide) (.inl (by decide))
  · have hcalls := memmove_strtok.2 (textMemory tokenText) 0x500000 0x500006 _ _
      ⟨hstring, hdelims, by decide, by decide, by decide⟩ (tokenSetting 0x500000 0x500006) []
      ⟨by decide, by simp, by decide⟩ 0 0
    obtain ⟨hresult, htokens⟩ := hcalls _ _ rfl
    rw [hruns] at hresult htokens
    refine ⟨_, congrArg some (Prod.ext hresult rfl), ?_⟩
    exact htokens 0 le_rfl (1, [0x61, 0x62]) rfl

end Text

end Hosted

end Playground
