/-
The end of the input: what a conversion takes there and behind a newline that ends the input.
-/
import Playground.Hosted.ScanfSteps

namespace Playground

namespace Hosted

open Exec

def newline : Byte := 0x0A

section Newline

variable {p : Byte → Bool} {buf : List Byte}

theorem takeWhile_newline (hp : p newline = false) (buf : List Byte) :
    (buf ++ [newline]).takeWhile p = buf.takeWhile p := by
  induction buf with
  | nil => simp [hp]
  | cons b buf ih =>
      rw [List.cons_append, List.takeWhile_cons, List.takeWhile_cons, ih]

theorem takeWhile_drop_newline (hp : p newline = false) (buf : List Byte) (n : Nat) :
    ((buf ++ [newline]).drop n).takeWhile p = (buf.drop n).takeWhile p := by
  rcases Nat.le_total n buf.length with hn | hn
  · rw [List.drop_append_of_le_length hn, takeWhile_newline hp]
  · rcases Nat.eq_or_lt_of_le hn with rfl | hlt
    · rw [List.drop_left, List.drop_length]
      simp [hp]
    · rw [List.drop_of_length_le (by rw [List.length_append, List.length_singleton]; omega),
        List.drop_of_length_le hn]

/-- A byte other than the newline stands where it stood. -/
theorem getElem?_newline {b : Byte} (hb : b ≠ newline) (buf : List Byte) (i : Nat) :
    (buf ++ [newline])[i]? = some b ↔ buf[i]? = some b := by
  rw [List.getElem?_append]
  split_ifs with hi
  · rfl
  · rw [List.getElem?_eq_none (Nat.le_of_not_lt hi)]
    constructor
    · intro h
      rcases Nat.eq_zero_or_pos (i - buf.length) with hzero | hpos
      · rw [hzero] at h
        exact absurd (Option.some.inj h).symm hb
      · rw [List.getElem?_eq_none (by rw [List.length_singleton]; omega)] at h
        cases h
    · intro h
      cases h

theorem getElem?_newline_beq {b : Byte} (hb : b ≠ newline) (buf : List Byte) (i : Nat) :
    ((buf ++ [newline])[i]? == some b) = (buf[i]? == some b) := by
  rw [Bool.eq_iff_iff, beq_iff_eq, beq_iff_eq, getElem?_newline hb]

theorem getElem?_newline_none {i : Nat} (hi : buf[i]? = none) :
    (buf ++ [newline])[i]? = none ∨ (buf ++ [newline])[i]? = some newline := by
  have hlen := List.getElem?_eq_none_iff.mp hi
  rcases Nat.eq_or_lt_of_le hlen with rfl | hlt
  · right
    rw [List.getElem?_concat_length]
  · left
    rw [List.getElem?_eq_none (by rw [List.length_append, List.length_singleton]; omega)]

theorem getElem?_newline_some {i : Nat} {b : Byte} (hi : buf[i]? = some b) :
    (buf ++ [newline])[i]? = some b := by
  rw [List.getElem?_append_left (List.getElem?_eq_some_iff.mp hi).1, hi]

theorem readSign_newline (buf : List Byte) : readSign (buf ++ [newline]) = readSign buf := by
  cases buf with
  | nil => rfl
  | cons b buf => rfl

theorem isDigitForBase_newline (base : Nat) : isDigitForBase newline base = false := by
  unfold isDigitForBase
  split_ifs <;> decide

theorem digits_newline (base n : Nat) (buf : List Byte) :
    ((buf ++ [newline]).drop n).takeWhile (isDigitForBase · base) =
      (buf.drop n).takeWhile (isDigitForBase · base) :=
  takeWhile_drop_newline (p := (isDigitForBase · base)) (isDigitForBase_newline base) buf n

/-- A number is the same with a newline behind it. -/
theorem parseSignedInt_newline (hbuf : buf ≠ []) (flexible : Bool) :
    parseSignedInt (buf ++ [newline]) flexible true = parseSignedInt buf flexible true := by
  have hx : (0x78 : Byte) ≠ newline := by decide
  have hX : (0x58 : Byte) ≠ newline := by decide
  have hzero : (0x30 : Byte) ≠ newline := by decide
  unfold parseSignedInt
  simp only [readSign_newline, getElem?_newline_beq hx, getElem?_newline_beq hX,
    getElem?_newline_beq hzero, digits_newline, hbuf,
    List.append_eq_nil_iff, false_and, not_true_eq_false, and_false, if_false]

theorem parseUnsignedInt_newline (hbuf : buf ≠ []) (base : Nat) :
    parseUnsignedInt (buf ++ [newline]) base true = parseUnsignedInt buf base true := by
  have hx : (0x78 : Byte) ≠ newline := by decide
  have hX : (0x58 : Byte) ≠ newline := by decide
  have hzero : (0x30 : Byte) ≠ newline := by decide
  unfold parseUnsignedInt
  simp only [getElem?_newline_beq hx, getElem?_newline_beq hX, getElem?_newline_beq hzero,
    digits_newline, hbuf, List.append_eq_nil_iff, false_and,
    not_true_eq_false, and_false, if_false]

/-- A word is spelled in the field itself. -/
theorem spell_newline {word : List Byte} (hword : newline ∉ word) (field : List Byte) (i : Nat) :
    (∃ stop, spell field i word = (false, .ok stop) ∧
      spell (field ++ [newline]) i word = (false, .ok stop)) ∨
    ∃ hit hit' read read', spell field i word = (hit, .error read) ∧
      spell (field ++ [newline]) i word = (hit', .error read') := by
  induction word generalizing i with
  | nil => exact .inl ⟨i, rfl, rfl⟩
  | cons want word ih =>
      have hwant : toAsciiLower newline ≠ want := by
        rintro rfl
        exact hword (by simp [toAsciiLower, newline])
      rw [spell, spell]
      cases hi : field[i]? with
      | some b =>
          rw [getElem?_newline_some hi]
          simp only []
          split_ifs
          · exact ih (fun hmem => hword (List.mem_cons_of_mem _ hmem)) (i + 1)
          · exact .inr ⟨_, _, _, _, rfl, rfl⟩
      | none =>
          right
          rcases getElem?_newline_none hi with hnone | hnewline
          · rw [hnone]
            exact ⟨_, _, _, _, rfl, rfl⟩
          · rw [hnewline]
            simp only [if_neg hwant]
            exact ⟨_, _, _, _, rfl, rfl⟩

/-- The error of a reading aside, the result is the same. -/
theorem scanInfinity_newline (field : List Byte) (start sign : Nat) :
    (scanInfinity (field ++ [newline]) start sign).result.toOption =
      (scanInfinity field start sign).result.toOption := by
  have hinf : newline ∉ ([0x69, 0x6E, 0x66] : List Byte) := by decide
  have hinity : newline ∉ ([0x69, 0x6E, 0x69, 0x74, 0x79] : List Byte) := by decide
  unfold scanInfinity
  rcases spell_newline hinf field start with ⟨stop, h, h'⟩ | ⟨_, _, _, _, h, h'⟩
  · rw [h, h']
    simp only []
    cases hi : field[stop]? with
    | none =>
        rcases getElem?_newline_none hi with hnone | hnewline
        · rw [hnone]
        · rw [hnewline]
          rfl
    | some b =>
        rw [getElem?_newline_some hi]
        simp only []
        split_ifs
        · rcases spell_newline hinity field stop with ⟨last, h, h'⟩ | ⟨_, _, _, _, h, h'⟩
          · rw [h, h']
          · rw [h, h']
            rfl
        · rfl
  · rw [h, h']
    rfl

theorem scanNan_newline (field : List Byte) (start sign : Nat) :
    (scanNan (field ++ [newline]) start sign).result.toOption =
      (scanNan field start sign).result.toOption := by
  have hnan : newline ∉ ([0x6E, 0x61, 0x6E] : List Byte) := by decide
  have halnum : isAlphanumericOrUnderscore newline = false := by decide
  unfold scanNan
  rcases spell_newline hnan field start with ⟨stop, h, h'⟩ | ⟨_, _, _, _, h, h'⟩
  · rw [h, h']
    simp only []
    cases hi : field[stop]? with
    | none =>
        rcases getElem?_newline_none hi with hnone | hnewline
        · rw [hnone]
        · rw [hnewline]
          rfl
    | some b =>
        rw [getElem?_newline_some hi]
        simp only [takeWhile_drop_newline halnum]
        split_ifs
        · generalize stop + 1 +
            ((field.drop (stop + 1)).takeWhile isAlphanumericOrUnderscore).length = close
          cases hclose : field[close]? with
          | none =>
              rcases getElem?_newline_none hclose with hnone | hnewline
              · rw [hnone]
              · rw [hnewline]
                rfl
          | some b' => rw [getElem?_newline_some hclose]
        · rfl
  · rw [h, h']
    rfl

theorem readDecimal_newline (s : DecimalState) (bytes : List Byte) :
    (readDecimal s (bytes ++ [newline])).1 = (readDecimal s bytes).1 ∧
      (readDecimal s (bytes ++ [newline])).2.1 = (readDecimal s bytes).2.1 := by
  induction bytes generalizing s with
  | nil =>
      have hnext : s.next newline = none := by
        simp [DecimalState.next, newline]
      simp only [List.nil_append, readDecimal, hnext, and_self]
  | cons b bytes ih =>
      rw [List.cons_append, readDecimal, readDecimal]
      cases s.next b with
      | none => exact ⟨rfl, rfl⟩
      | some next => exact ⟨(ih next).1, congrArg (· + 1) (ih next).2⟩

theorem length_readDecimal_le (s : DecimalState) (bytes : List Byte) :
    (readDecimal s bytes).2.1 ≤ bytes.length := by
  induction bytes generalizing s with
  | nil => exact le_refl _
  | cons b bytes ih =>
      rw [readDecimal]
      cases s.next b with
      | none => exact Nat.zero_le _
      | some next => exact Nat.succ_le_succ (ih next)

theorem scanDecimal_newline {field : List Byte} {start : Nat} (hstart : start ≤ field.length) :
    (scanDecimal (field ++ [newline]) start).result.toOption =
      (scanDecimal field start).result.toOption := by
  have hstop := length_readDecimal_le ⟨false, false, false, false, false⟩ (field.drop start)
  obtain ⟨hstate, hused⟩ := readDecimal_newline ⟨false, false, false, false, false⟩
    (field.drop start)
  rw [List.length_drop] at hstop
  unfold scanDecimal
  rw [List.drop_append_of_le_length hstart]
  rcases hread : readDecimal ⟨false, false, false, false, false⟩ (field.drop start) with
    ⟨s, used, hit⟩
  rcases hread' : readDecimal ⟨false, false, false, false, false⟩ (field.drop start ++ [newline])
    with ⟨s', used', hit'⟩
  rw [hread] at hstop hstate hused
  rw [hread'] at hstate hused
  obtain rfl : s' = s := hstate
  obtain rfl : used' = used := hused
  replace hstop : used' ≤ field.length - start := hstop
  simp only [List.take_append_of_le_length (Nat.add_le_of_le_sub' hstart hstop)]
  split_ifs <;> rfl

theorem scanFloat_newline (field : List Byte) :
    (scanFloat (field ++ [newline])).result.toOption = (scanFloat field).result.toOption := by
  have hi : (0x69 : Byte) ≠ newline := by decide
  have hI : (0x49 : Byte) ≠ newline := by decide
  have hn : (0x6E : Byte) ≠ newline := by decide
  have hN : (0x4E : Byte) ≠ newline := by decide
  unfold scanFloat
  simp only [readSign_newline, getElem?_newline hi, getElem?_newline hI, getElem?_newline hn,
    getElem?_newline hN]
  generalize (if (readSign field).1 then 2 ^ 63 else 0 : Nat) = sign
  split_ifs
  · exact scanInfinity_newline field _ _
  · exact scanNan_newline field _ _
  · exact scanDecimal_newline (readSign_le field)

end Newline

section Field

variable {input : List Byte} {inPos : Nat} {spec : ScanSpec} {conv : Char}

theorem le_skipSpace (input : List Byte) (i : Nat) : i ≤ skipSpace input i := Nat.le_add_right i _

theorem le_fieldStart (conv : Char) (input : List Byte) (i : Nat) :
    i ≤ fieldStart conv input i := by
  unfold fieldStart
  split_ifs
  · exact le_refl _
  · exact le_skipSpace input i

/-- White space is skipped to the same byte of the input. -/
theorem skipSpace_newline (h : skipSpace input inPos < input.length) :
    skipSpace (input ++ [newline]) inPos = skipSpace input inPos := by
  have hle := le_skipSpace input inPos
  unfold skipSpace at h ⊢
  rw [List.drop_append_of_le_length (by omega), List.takeWhile_append, if_neg]
  rw [List.length_drop]
  omega

/-- A field that the end of the input cuts short: a word that runs into it with width to spare,
or fewer bytes than `%c` takes. -/
def CutShort (spec : ScanSpec) (conv : Char) (input : List Byte) (inPos : Nat) : Prop :=
  (conv = 's' ∧ input.length < skipSpace input inPos + fieldLimit spec ∧
    ∀ b ∈ input.drop (skipSpace input inPos), isCSpace b = false) ∨
  (conv = 'c' ∧ input.length < inPos + max (spec.width.getD 1) 1)

/-- A buffer that is longer than the width is cut the same way. -/
theorem take_newline (buf : List Byte) (limit : Nat) :
    (buf ++ [newline]).take limit =
      if limit ≤ buf.length then buf.take limit else buf.take limit ++ [newline] := by
  split_ifs with hle
  · exact List.take_append_of_le_length hle
  · rw [List.take_of_length_le (by rw [List.length_append, List.length_singleton]; omega),
      List.take_of_length_le (by omega)]

/-- A scan of a field that a newline behind it leaves alone. -/
theorem scan_newline {α : Type} (scan : List Byte → α)
    (h : ∀ buf, buf ≠ [] → scan (buf ++ [newline]) = scan buf) {buf : List Byte} (hbuf : buf ≠ [])
    {limit : Nat} (hlimit : 0 < limit) :
    scan ((buf ++ [newline]).take limit) = scan (buf.take limit) := by
  rw [take_newline]
  split_ifs
  · rfl
  · have hne : buf.take limit ≠ [] := by
      rw [ne_eq, List.take_eq_nil_iff]
      exact not_or.mpr ⟨by omega, hbuf⟩
    exact h _ hne

theorem wordBytes_newline {start : Nat} (hstart : start ≤ input.length) (limit : Nat) :
    wordBytes (input ++ [newline]) start limit = wordBytes input start limit := by
  unfold wordBytes
  rw [List.drop_append_of_le_length hstart, take_newline]
  split_ifs
  · rfl
  · exact takeWhile_newline (p := fun b => ! isCSpace b) (by decide) _

theorem length_wordBytes_le (input : List Byte) (start limit : Nat) :
    (wordBytes input start limit).length ≤ min limit (input.length - start) := by
  have hle := (List.takeWhile_sublist (p := fun b => ! isCSpace b)
    (l := (input.drop start).take limit)).length_le
  rwa [List.length_take, List.length_drop] at hle

theorem cutShort_word_iff {start limit : Nat} (hstart : start ≤ input.length) :
    start + (wordBytes input start limit).length = input.length ∧
        (wordBytes input start limit).length < limit ↔
      input.length < start + limit ∧ ∀ b ∈ input.drop start, isCSpace b = false := by
  have hlen : (input.drop start).length = input.length - start := List.length_drop
  constructor
  · rintro ⟨hstop, hlt⟩
    refine ⟨by omega, ?_⟩
    have htake : (input.drop start).take limit = input.drop start :=
      List.take_of_length_le (by omega)
    unfold wordBytes at hstop
    rw [htake] at hstop
    have hall := (List.takeWhile_sublist (p := fun b => ! isCSpace b)
      (l := input.drop start)).eq_of_length (by omega)
    intro b hb
    rw [← hall] at hb
    simpa using List.mem_takeWhile_imp hb
  · rintro ⟨hlt, hall⟩
    have hword : wordBytes input start limit = input.drop start := by
      unfold wordBytes
      rw [List.take_of_length_le (by omega), List.takeWhile_eq_self_iff]
      intro b hb
      rw [hall b hb]
      rfl
    rw [hword, hlen]
    omega

theorem fieldLimit_pos (spec : ScanSpec) : 0 < fieldLimit spec :=
  lt_of_lt_of_le Nat.one_pos (le_max_right _ _)

theorem parseFloat_newline {buf : List Byte} (hbuf : buf ≠ []) (width : Nat) (bits : Word)
    (consumed : Nat) : parseFloat (buf ++ [newline]) width true = some (.ok (bits, consumed)) ↔
      parseFloat buf width true = some (.ok (bits, consumed)) := by
  have hresult : (scanFloat ((buf ++ [newline]).take width)).result.toOption =
      (scanFloat (buf.take width)).result.toOption := by
    rw [take_newline]
    split_ifs
    · rfl
    · exact scanFloat_newline _
  have hok : ∀ {result : Except Nat (Word × Nat)} {r : Word × Nat},
      result = .ok r ↔ result.toOption = some r := by
    rintro (_ | _) r <;> simp [Except.toOption]
  unfold parseFloat
  simp only [hbuf, List.append_eq_nil_iff, false_and, if_false, not_true_eq_false, and_false,
    Option.some.injEq, hok, hresult]

/-- A conversion with a byte of the input before it takes at the end of the input what it would
take with a newline behind it, unless its field is cut short. -/
theorem scanField_newline (hstart : fieldStart conv input inPos < input.length)
    {stored : Option Stored} {stop : Nat} :
    scanField spec conv input inPos true = .taken stored stop ↔
      scanField spec conv (input ++ [newline]) inPos true = .taken stored stop ∧
        ¬ CutShort spec conv input inPos := by
  have hnot : conv ≠ 's' → conv ≠ 'c' → ¬ CutShort spec conv input inPos :=
    fun hs hc h => h.elim (fun h => hs h.1) fun h => hc h.1
  unfold fieldStart at hstart
  by_cases hpercent : conv = '%'
  · subst hpercent
    rw [if_pos (.inr rfl)] at hstart
    have hget : (input ++ [newline])[inPos]? = input[inPos]? :=
      List.getElem?_append_left hstart
    unfold scanField
    simp only [if_true, hget, hnot (by decide) (by decide), not_false_eq_true, and_true]
  by_cases hchar : conv = 'c'
  · subst hchar
    rw [if_pos (.inl rfl)] at hstart
    unfold scanField CutShort
    simp only [show ('c' : Char) ≠ '%' by decide, show ('c' : Char) ≠ 's' by decide, if_false,
      if_true,      false_and, true_and, false_or, List.length_append, List.length_singleton]
    by_cases hshort : input.length < inPos + max (spec.width.getD 1) 1
    · simp [hshort]
    · rw [if_neg hshort, if_neg (by omega), List.drop_append_of_le_length hstart.le,
        List.take_append_of_le_length (by rw [List.length_drop]; omega)]
      simp [hshort]
  rw [if_neg (by rintro (h | h); exacts [hchar h, hpercent h])] at hstart
  have hskip := skipSpace_newline hstart
  have hdrop : (input ++ [newline]).drop (skipSpace input inPos) =
      input.drop (skipSpace input inPos) ++ [newline] := List.drop_append_of_le_length hstart.le
  have hrest : input.drop (skipSpace input inPos) ≠ [] := by
    rw [ne_eq, List.drop_eq_nil_iff]
    omega
  by_cases hword : conv = 's'
  · subst hword
    have hcut : CutShort spec 's' input inPos ↔
        skipSpace input inPos +
            (wordBytes input (skipSpace input inPos) (fieldLimit spec)).length = input.length ∧
          (wordBytes input (skipSpace input inPos) (fieldLimit spec)).length < fieldLimit spec := by
      rw [cutShort_word_iff hstart.le]
      simp [CutShort]
    have hlen := length_wordBytes_le input (skipSpace input inPos) (fieldLimit spec)
    have hbefore : ¬ input.length ≤ skipSpace input inPos := by omega
    have hbefore' : ¬ input.length + 1 ≤ skipSpace input inPos := by omega
    have hstop : skipSpace input inPos +
        (wordBytes input (skipSpace input inPos) (fieldLimit spec)).length ≠ input.length + 1 := by
      omega
    rw [hcut]
    unfold scanField
    simp only [show ('s' : Char) ≠ '%' by decide, show ('s' : Char) ≠ 'c' by decide,
      show ('s' : Char) ≠ 'd' by decide, show ('s' : Char) ≠ 'i' by decide,
      show ('s' : Char) ≠ 'u' by decide, show ('s' : Char) ≠ 'x' by decide,
      show ('s' : Char) ≠ 'X' by decide, or_self, if_false, if_true, hskip,
      wordBytes_newline hstart.le, List.length_append, List.length_singleton, hbefore, hbefore',
      hstop, false_and]
    split_ifs with hrun
    · simp [hrun]
    · simp [hrun]
  have hsigned : ∀ flexible, parseSignedInt ((input.drop (skipSpace input inPos) ++
      [newline]).take (fieldLimit spec)) flexible true = parseSignedInt ((input.drop
      (skipSpace input inPos)).take (fieldLimit spec)) flexible true := fun flexible =>
    scan_newline (parseSignedInt · flexible true)
      (fun _ hbuf => parseSignedInt_newline hbuf flexible) hrest (fieldLimit_pos spec)
  have hunsigned : ∀ base, parseUnsignedInt ((input.drop (skipSpace input inPos) ++
      [newline]).take (fieldLimit spec)) base true = parseUnsignedInt ((input.drop
      (skipSpace input inPos)).take (fieldLimit spec)) base true := fun base =>
    scan_newline (parseUnsignedInt · base true)
      (fun _ hbuf => parseUnsignedInt_newline hbuf base) hrest (fieldLimit_pos spec)
  simp only [hnot hword hchar, not_false_eq_true, and_true]
  unfold scanField
  simp only [hpercent, hchar, hword, if_false, hskip, hdrop, Bool.or_true, hsigned, hunsigned]
  have hfloat := parseFloat_newline hrest (fieldLimit spec)
  generalize parseFloat (input.drop (skipSpace input inPos) ++ [newline]) (fieldLimit spec) true =
    behind at hfloat ⊢
  generalize parseFloat (input.drop (skipSpace input inPos)) (fieldLimit spec) true =
    here at hfloat ⊢
  by_cases hletter : conv ∈ ['f', 'F', 'e', 'E', 'g', 'G']
  · simp only [hletter, if_true]
    split_ifs
    · rfl
    · rfl
    · rfl
    all_goals
      constructor
      · intro h
        match here, h with
        | some (.ok (bits, consumed)), h =>
            rw [(hfloat bits consumed).mpr rfl]
            exact h
      · intro h
        match behind, h with
        | some (.ok (bits, consumed)), h =>
            rw [(hfloat bits consumed).mp rfl]
            exact h
  · simp only [hletter, if_false]

theorem intField_le {α : Type} {scanned : ScannedInt α} {bits : α → Word} {long : Bool}
    {start stop : Nat} {stored : Option Stored}
    (h : intField scanned bits long start = .taken stored stop) :
    stored.isSome ∧ start ≤ stop := by
  unfold intField at h
  split at h
  · cases h
  · split_ifs at h
    cases h
    exact ⟨rfl, Nat.le_add_right _ _⟩

/-- What is taken lies behind the start of the field, and only `%%` has nothing to store. -/
theorem scanField_taken {closed : Bool} {stored : Option Stored} {stop : Nat}
    (h : scanField spec conv input inPos closed = .taken stored stop) :
    (stored.isSome ↔ conv ≠ '%') ∧ fieldStart conv input inPos ≤ stop := by
  have hskip : conv ≠ 'c' → conv ≠ '%' → fieldStart conv input inPos = skipSpace input inPos :=
    fun hc hp => if_neg (not_or.mpr ⟨hc, hp⟩)
  unfold scanField at h
  by_cases hpercent : conv = '%'
  · rw [if_pos hpercent] at h
    split at h
    · cases h
    · split_ifs at h
      cases h
      rw [fieldStart, if_pos (.inr hpercent)]
      exact ⟨by simp [hpercent], Nat.le_succ _⟩
  rw [if_neg hpercent] at h
  by_cases hchar : conv = 'c'
  · simp only [hchar, if_true] at h
    split_ifs at h
    cases h
    rw [fieldStart, if_pos (.inl hchar)]
    exact ⟨by simp [hpercent], Nat.le_add_right _ _⟩
  rw [hskip hchar hpercent]
  simp only [hchar, if_false] at h
  have hsome : stored.isSome ∧ skipSpace input inPos ≤ stop →
      (stored.isSome ↔ conv ≠ '%') ∧ skipSpace input inPos ≤ stop :=
    fun h => ⟨⟨fun _ => hpercent, fun _ => h.1⟩, h.2⟩
  apply hsome
  split_ifs at h
  · exact intField_le h
  · exact intField_le h
  · exact intField_le h
  · cases h
    exact ⟨rfl, Nat.le_add_right _ _⟩
  all_goals
    split at h
    · cases h
    · cases h
    · cases h
      exact ⟨rfl, Nat.le_add_right _ _⟩

end Field

/-- A conversion that stores leaves one more field matched, unless it is suppressed. -/
theorem takeField_state {spec : ScanSpec} {stored : Option Stored} {stop : Nat} {s s' : ScanState}
    {m m' : Machine} (h : (takeField spec stored stop s).run m = (m', .ok s')) :
    s'.inPos = stop ∧
      s'.matched = s.matched + if stored.isSome ∧ spec.suppress = false then 1 else 0 := by
  unfold takeField at h
  cases stored with
  | none =>
      cases h
      exact ⟨rfl, rfl⟩
  | some stored =>
      cases hsuppress : spec.suppress with
      | true =>
          simp only [hsuppress, if_true] at h
          cases h
          exact ⟨rfl, by simp⟩
      | false =>
          simp only [hsuppress, Bool.false_eq_true, if_false] at h
          rw [run_bind] at h
          split at h
          · rw [run_bind] at h
            split at h
            · cases h
              exact ⟨rfl, rfl⟩
            · cases h
          · cases h

namespace Reads

variable {input : List Byte} {closed : Bool} {fmt fmt₁ : List Char} {s s₁ : ScanState}
  {m m₁ : Machine} {fields : List ScanSpec}

theorem inPos_le (h : Reads input closed fmt s m fields fmt₁ s₁ m₁) : s.inPos ≤ s₁.inPos := by
  induction h with
  | done => exact le_refl _
  | space _ _ ih => exact (le_skipSpace input _).trans ih
  | literal _ _ _ _ _ ih => exact (Nat.le_succ _).trans ih
  | @field _ _ _ s _ _ _ _ _ _ _ _ conv _ _ _ _ hfield htake _ ih =>
      rw [(takeField_state htake).1] at ih
      exact ((le_fieldStart conv input s.inPos).trans (scanField_taken hfield).2).trans ih

/-- The fields stored so far are counted. -/
theorem matched_eq (h : Reads input closed fmt s m fields fmt₁ s₁ m₁) :
    s₁.matched = s.matched + (fields.filter fun spec => ! spec.suppress).length := by
  induction h with
  | done => rfl
  | space _ _ ih => exact ih
  | literal _ _ _ _ _ ih => exact ih
  | @field _ _ _ _ _ _ _ _ _ _ spec _ conv _ _ _ _ hfield htake _ ih =>
      have hsome := (scanField_taken hfield).1
      rw [ih, (takeField_state htake).2]
      by_cases hpercent : conv = '%'
      · rw [if_neg (fun h => hsome.mp h.1 hpercent), if_pos hpercent]
        rfl
      rw [if_neg hpercent, List.filter_cons]
      cases hsuppress : spec.suppress with
      | true =>
          rw [if_neg (fun h => Bool.noConfusion h.2)]
          rfl
      | false =>
          rw [if_pos ⟨hsome.mpr hpercent, rfl⟩]
          show _ + 1 + _ = _ + (spec :: _).length
          rw [List.length_cons, Nat.add_assoc, Nat.add_comm 1]
          rfl

/-- A call that stops short of the end of the input reads the same with a newline there. -/
theorem newline (h : Reads input true fmt s m fields fmt₁ s₁ m₁)
    (hstop : s₁.inPos < input.length) :
    Reads (input ++ [newline]) true fmt s m fields fmt₁ s₁ m₁ := by
  induction h with
  | done => exact .done _ _ _
  | space hc h ih =>
      have hskip := skipSpace_newline (lt_of_le_of_lt h.inPos_le hstop)
      refine .space hc ?_
      rw [hskip]
      exact ih hstop
  | literal hc hpercent hb heq h ih =>
      exact .literal hc hpercent (getElem?_newline_some hb) heq (ih hstop)
  | field hspec hconv hfield htake h ih =>
      have hle := h.inPos_le
      rw [(takeField_state htake).1] at hle
      have hstart := lt_of_le_of_lt ((scanField_taken hfield).2.trans hle) hstop
      exact .field hspec hconv ((scanField_newline hstart).mp hfield).1 htake (ih hstop)

/-- Without a step nothing has changed. -/
theorem eq_of_length (h : Reads input closed fmt s m fields fmt s₁ m₁) :
    fields = [] ∧ s₁ = s ∧ m₁ = m := by
  cases h with
  | done => exact ⟨rfl, rfl, rfl⟩
  | space _ h => exact absurd h.length_le (by rw [List.length_cons]; omega)
  | literal _ _ _ _ h => exact absurd h.length_le (by rw [List.length_cons]; omega)
  | field _ hconv _ _ h =>
      have hlen := congrArg List.length hconv
      have hle := h.length_le
      rw [List.length_drop, List.length_cons] at hlen
      rw [List.length_cons] at hle
      omega

/-- A step over one conversion. -/
theorem of_conversion {rest behind : List Char} {spec : ScanSpec} {used : Nat} {conv : Char}
    (h : Reads input closed ('%' :: rest) s m fields behind s₁ m₁)
    (hspec : parseScanSpec rest = (spec, used)) (hconv : rest.drop used = conv :: behind) :
    ∃ stored stop, scanField spec conv input s.inPos closed = .taken stored stop ∧
      (takeField spec stored stop s.fresh).run m = (m₁, .ok s₁) ∧
      fields = if conv = '%' then [] else [spec] := by
  have hlen := congrArg List.length hconv
  rw [List.length_drop, List.length_cons] at hlen
  generalize hfmt : '%' :: rest = fmt at h
  cases h with
  | done =>
      have hwhole := congrArg List.length hfmt
      rw [List.length_cons] at hwhole
      omega
  | space hc =>
      cases hfmt
      rw [isFormatSpace_percent] at hc
      cases hc
  | literal _ hpercent =>
      cases hfmt
      exact absurd rfl hpercent
  | field hspec' hconv' hfield htake h =>
      cases hfmt
      cases hspec.symm.trans hspec'
      cases hconv.symm.trans hconv'
      obtain ⟨rfl, rfl, rfl⟩ := h.eq_of_length
      exact ⟨_, _, hfield, htake, rfl⟩

end Reads

/-- The call runs out of input: at a literal, or inside a field. -/
inductive MeetsEnd (input : List Byte) (closed : Bool) : List Char → ScanState → Nat → Prop
  | literal {c : Char} {rest : List Char} {s : ScanState} (hc : isFormatSpace c = false)
      (hpercent : c ≠ '%') (h : input[s.inPos]? = none) :
      MeetsEnd input closed (c :: rest) s s.inPos
  | field {rest behind : List Char} {s : ScanState} {spec : ScanSpec} {used : Nat} {conv : Char}
      {inPos : Nat} (hspec : parseScanSpec rest = (spec, used))
      (hconv : rest.drop used = conv :: behind)
      (h : scanField spec conv input s.inPos closed = .stalled inPos) :
      MeetsEnd input closed ('%' :: rest) s inPos

/-- A call that reads its format and then gets as far as a state. -/
def CallReads (input : List Byte) (closed : Bool) (m : Machine) (fields : List ScanSpec)
    (fmt : List Char) (s : ScanState) (m' : Machine) : Prop :=
  ∃ bytes, readCString m.mem (m.regs.gprValue 0 true) "scanf's format string" = .ok bytes ∧
    Reads input closed (fromUtf8Lossy bytes) ⟨0, 0, .new 1⟩
      ⟨(m.regs.readGpr 0 true).1, m.mem, m.heap⟩ fields fmt s m'

/-- The call comes back with this in x0. -/
def CallAnswers (result : Machine × HostSide × Except EmuError HostOutcome) (x0 : Word) : Prop :=
  result.2.2 = .ok .continue ∧ result.1.regs.gprValue 0 true = x0

section Answer

variable {side : HostSide} {closed : Bool} {m : Machine} {s : ScanState} {fmt : List Char}

theorem run_scanf {bytes : List Byte}
    (hread : readCString m.mem (m.regs.gprValue 0 true) "scanf's format string" = .ok bytes) :
    ∃ side', ScratchOnly side side' ∧ scanf.run side closed m =
      (scanFrom 0 0 ⟨0, 0, .new 1⟩ (fromUtf8Lossy bytes)).run side' closed
        ⟨(m.regs.readGpr 0 true).1, m.mem, m.heap⟩ := by
  have hfmt : (liftM (attempt fun m' => readCString m'.mem (m.regs.gprValue 0 true)
      "scanf's format string") : Stub _).run side closed
        ⟨(m.regs.readGpr 0 true).1, m.mem, m.heap⟩ =
      (⟨(m.regs.readGpr 0 true).1, m.mem, m.heap⟩, side, .ok bytes) := by
    rw [Stub.run_liftM, run_attempt]
    exact congrArg (fun bytes => (_, side, bytes)) hread
  unfold scanf
  rw [run_bind_readGpr, Stub.run_bind_ok hfmt]
  exact ⟨_, ⟨_, rfl⟩, Stub.run_bind_ok rfl⟩

theorem callAnswers_commit :
    CallAnswers ((commit s).run side closed m) (BitVec.ofNat 64 s.matched) :=
  ⟨rfl, gprValue_answer _ _⟩

theorem callAnswers_stall (inPos matched : Nat) :
    CallAnswers ((stall inPos matched).run side true m)
    (if 0 < matched then BitVec.ofNat 64 matched else BitVec.allOnes 64) :=
  ⟨rfl, gprValue_answer _ _⟩

/-- At the end of the input the call stalls. -/
theorem MeetsEnd.run {inPos : Nat} (h : MeetsEnd side.stdin closed fmt s inPos) (pos : Nat) :
    ∃ side', ScratchOnly side side' ∧
      (scanFrom pos 0 s fmt).run side closed m = (stall inPos s.matched).run side' closed m := by
  cases h with
  | literal hc hpercent h =>
      refine ⟨side, .refl side, ?_⟩
      rw [scanFrom, if_neg (by rw [hc]; decide), if_pos hpercent,
        Stub.run_bind_ok (Stub.run_look _ _ _ _)]
      simp only [h]
  | field hspec hconv h =>
      obtain ⟨side', hscratch, hrun⟩ :=
        run_scanFrom_conversion hspec (getElem?_of_drop_eq_cons hconv) pos
      refine ⟨side', hscratch, ?_⟩
      rw [hrun, h]

/-- How a call ends that does not run out of input: it is done, or a store fails. -/
def Comes (input : List Byte) (closed : Bool) (fmt : List Char) (s : ScanState) (m : Machine) :
    Prop :=
  ∀ (side : HostSide) (pos : Nat), side.stdin = input →
    (∃ side' s', s'.matched = s.matched ∧
      (scanFrom pos 0 s fmt).run side closed m = (commit s').run side' closed m) ∨
    ∃ m' side' e, (scanFrom pos 0 s fmt).run side closed m = (m', side', .error e)

/-- Every call reads on until it is done or runs out of input. -/
theorem exists_reads (input : List Byte) (closed : Bool) (fmt : List Char) (s : ScanState)
    (m : Machine) : ∃ fields fmt' s' m', Reads input closed fmt s m fields fmt' s' m' ∧
      ((∃ inPos, MeetsEnd input closed fmt' s' inPos) ∨ Comes input closed fmt' s' m') := by
  induction hlen : fmt.length using Nat.strong_induction_on generalizing fmt s m with
  | _ n ih =>
      cases fmt with
      | nil => exact ⟨[], [], s, m, .done _ _ _, .inr fun side _ _ => .inl ⟨side, s, rfl, rfl⟩⟩
      | cons c rest =>
          rw [List.length_cons] at hlen
          cases hc : isFormatSpace c with
          | true =>
              obtain ⟨fields, fmt', s', m', hreads, hend⟩ :=
                ih rest.length (by omega) rest { s with inPos := skipSpace input s.inPos } m rfl
              exact ⟨fields, fmt', s', m', .space hc hreads, hend⟩
          | false =>
          by_cases hpercent : c = '%'
          · subst hpercent
            rcases hspec : parseScanSpec rest with ⟨spec, used⟩
            cases hconv : rest[used]? with
            | none =>
                refine ⟨[], _, s, m, .done _ _ _, .inr fun side pos _ => .inl ⟨side, s, rfl, ?_⟩⟩
                rw [scanFrom, if_neg (by rw [hc]; decide), if_neg (not_not_intro rfl)]
                simp only [hspec, hconv]
            | some conv =>
            have hdrop : rest.drop used = conv :: rest.drop (used + 1) := by
              obtain ⟨hlt, hget⟩ := List.getElem?_eq_some_iff.mp hconv
              rw [List.drop_eq_getElem_cons hlt, hget]
            have hbehind : (rest.drop (used + 1)).length ≤ rest.length := by
              rw [List.length_drop]
              omega
            cases hfield : scanField spec conv input s.inPos closed with
            | stalled inPos =>
                exact ⟨[], _, s, m, .done _ _ _, .inl ⟨inPos, .field hspec hdrop hfield⟩⟩
            | mismatch inPos =>
                refine ⟨[], _, s, m, .done _ _ _, .inr fun side pos hstdin => .inl ?_⟩
                obtain ⟨side', -, hrun⟩ := run_scanFrom_conversion hspec hconv pos
                rw [hstdin, hfield] at hrun
                exact ⟨side', { s.fresh with inPos := inPos }, rfl, hrun⟩
            | unknown =>
                refine ⟨[], _, s, m, .done _ _ _, .inr fun side pos hstdin => .inl ?_⟩
                obtain ⟨side', -, hrun⟩ := run_scanFrom_conversion hspec hconv pos
                rw [hstdin, hfield] at hrun
                exact ⟨_, s.fresh, rfl, hrun.trans (Stub.run_bind_ok rfl)⟩
            | taken stored inPos =>
                rcases htake : (takeField spec stored inPos s.fresh).run m with
                  ⟨m₁, e | s₁⟩
                · refine ⟨[], _, s, m, .done _ _ _, .inr fun side pos hstdin => .inr ?_⟩
                  obtain ⟨side', -, hrun⟩ := run_scanFrom_conversion hspec hconv pos
                  rw [hstdin, hfield] at hrun
                  exact ⟨m₁, side', e, hrun.trans
                    (Stub.run_bind_error (by rw [Stub.run_liftM, htake]))⟩
                · obtain ⟨fields, fmt', s', m', hreads, hend⟩ :=
                    ih _ (by omega) (rest.drop (used + 1)) s₁ m₁ rfl
                  exact ⟨_, fmt', s', m', .field hspec hdrop hfield htake hreads, hend⟩
          · cases hget : input[s.inPos]? with
            | none =>
                exact ⟨[], _, s, m, .done _ _ _, .inl ⟨s.inPos, .literal hc hpercent hget⟩⟩
            | some b =>
                by_cases heq : byteChar b = c
                · obtain ⟨fields, fmt', s', m', hreads, hend⟩ :=
                    ih rest.length (by omega) rest { s with inPos := s.inPos + 1 } m rfl
                  exact ⟨fields, fmt', s', m', .literal hc hpercent hget heq hreads, hend⟩
                · refine ⟨[], _, s, m, .done _ _ _, .inr fun side pos hstdin => .inl
                    ⟨side, s, rfl, ?_⟩⟩
                  rw [scanFrom, if_neg (by rw [hc]; decide), if_pos hpercent,
                    Stub.run_bind_ok (Stub.run_look _ _ _ _), hstdin]
                  simp only [hget, ne_eq, heq, not_false_eq_true, if_true]

end Answer

section Lossy

/-- Text has at most as many characters as bytes. -/
theorem length_lossyFrom_le (skip : Nat) (bytes : List Byte) :
    (lossyFrom skip bytes).length ≤ bytes.length := by
  induction bytes generalizing skip with
  | nil =>
      rw [lossyFrom]
      exact le_refl _
  | cons b bytes ih =>
      cases skip with
      | zero => exact Nat.succ_le_succ (ih _)
      | succ skip => exact (ih skip).trans (Nat.le_succ _)

theorem CallReads.matched_lt {input : List Byte} {closed : Bool} {m m' : Machine}
    {fields : List ScanSpec} {fmt : List Char} {s : ScanState}
    (h : CallReads input closed m fields fmt s m') : s.matched < 2 ^ 64 - 1 := by
  obtain ⟨bytes, hread, h⟩ := h
  have hbound : maxPrintfCallBytes = 1048576 := rfl
  have hbytes := length_readCString hread
  have hfmt := length_lossyFrom_le 0 bytes
  have hfields := h.fields_le
  have hmatched := h.matched_eq
  have hfilter := List.length_filter_le (fun spec : ScanSpec => ! spec.suppress) fields
  simp only [Nat.zero_add] at hmatched
  rw [fromUtf8Lossy] at hfields
  omega

end Lossy

section Call

variable {side : HostSide} {m m' : Machine} {fields : List ScanSpec} {fmt : List Char}
  {s : ScanState}

theorem CallReads.run {closed : Bool} (h : CallReads side.stdin closed m fields fmt s m') :
    ∃ pos side', ScratchOnly side side' ∧
      scanf.run side closed m = (scanFrom pos 0 s fmt).run side' closed m' := by
  obtain ⟨bytes, hread, h⟩ := h
  obtain ⟨side₁, hscratch₁, hrun₁⟩ := @run_scanf side closed m bytes hread
  obtain ⟨pos, side', hscratch, hrun⟩ := h.run (stdin_of_scratchOnly hscratch₁) 0
  exact ⟨pos, side', hscratch₁.trans hscratch, hrun₁.trans hrun⟩

theorem allOnes_ne {n : Nat} (hn : n < 2 ^ 64 - 1) : BitVec.ofNat 64 n ≠ BitVec.allOnes 64 := by
  intro h
  have heq := congrArg BitVec.toNat h
  rw [BitVec.toNat_ofNat, BitVec.toNat_allOnes, Nat.mod_eq_of_lt (by omega)] at heq
  omega

theorem CallReads.matched_eq_zero_iff {closed : Bool}
    (h : CallReads side.stdin closed m fields fmt s m') :
    s.matched = 0 ↔ ∀ spec ∈ fields, spec.suppress = true := by
  obtain ⟨bytes, -, h⟩ := h
  rw [h.matched_eq, Nat.zero_add, List.length_eq_zero_iff, List.filter_eq_nil_iff]
  simp

/-- A call that has come to the end of the input answers -1 when it has stored nothing. -/
theorem CallReads.answers_eof_iff {inPos : Nat}
    (hcall : CallReads side.stdin true m fields fmt s m')
    (hend : MeetsEnd side.stdin true fmt s inPos) :
    CallAnswers (scanf.run side true m) (BitVec.allOnes 64) ↔
      ∀ spec ∈ fields, spec.suppress = true := by
  obtain ⟨pos, side', hscratch, hrun⟩ := hcall.run
  rw [← stdin_of_scratchOnly hscratch] at hend
  obtain ⟨side'', -, hstall⟩ := hend.run (m := m') pos
  rw [hrun, hstall]
  constructor
  · rintro ⟨-, hx0⟩
    refine hcall.matched_eq_zero_iff.mp ?_
    have hanswer := (@callAnswers_stall side'' m' inPos s.matched).2
    rw [hx0] at hanswer
    split_ifs at hanswer with hpos
    · exact absurd hanswer.symm (allOnes_ne hcall.matched_lt)
    · omega
  · intro hall
    rw [hcall.matched_eq_zero_iff.mpr hall]
    exact callAnswers_stall inPos 0

/-- A closed call answers -1 when it runs out of input with nothing stored. -/
theorem callAnswers_eof_iff : CallAnswers (scanf.run side true m) (BitVec.allOnes 64) ↔
    ∃ fields fmt s m' inPos, CallReads side.stdin true m fields fmt s m' ∧
      MeetsEnd side.stdin true fmt s inPos ∧ ∀ spec ∈ fields, spec.suppress = true := by
  constructor
  · intro hanswers
    obtain ⟨hok, hx0⟩ := id hanswers
    cases hread : readCString m.mem (m.regs.gprValue 0 true) "scanf's format string" with
    | error e =>
        have hfmt : (liftM (attempt fun m' => readCString m'.mem (m.regs.gprValue 0 true)
            "scanf's format string") : Stub _).run side true
              ⟨(m.regs.readGpr 0 true).1, m.mem, m.heap⟩ =
            (⟨(m.regs.readGpr 0 true).1, m.mem, m.heap⟩, side, .error e) := by
          rw [Stub.run_liftM, run_attempt]
          exact congrArg (fun bytes => (_, side, bytes)) hread
        unfold scanf at hok
        rw [run_bind_readGpr, Stub.run_bind_error hfmt] at hok
        cases hok
    | ok bytes =>
        obtain ⟨fields, fmt, s, m', hreads, hend⟩ := exists_reads side.stdin true
          (fromUtf8Lossy bytes) ⟨0, 0, .new 1⟩ ⟨(m.regs.readGpr 0 true).1, m.mem, m.heap⟩
        have hcall : CallReads side.stdin true m fields fmt s m' := ⟨bytes, hread, hreads⟩
        rcases hend with ⟨inPos, hend⟩ | hcomes
        · exact ⟨fields, fmt, s, m', inPos, hcall, hend, (hcall.answers_eof_iff hend).mp hanswers⟩
        · obtain ⟨pos, side', hscratch, hrun⟩ := hcall.run
          rw [hrun] at hok hx0
          rcases hcomes side' pos (stdin_of_scratchOnly hscratch) with
            ⟨side'', s', hmatched, hcommit⟩ | ⟨m'', side'', e, herr⟩
          · have hanswer := (@callAnswers_commit side'' true m' s').2
            rw [← hcommit, hx0, hmatched] at hanswer
            exact absurd hanswer.symm (allOnes_ne hcall.matched_lt)
          · rw [herr] at hok
            cases hok
  · rintro ⟨fields, fmt, s, m', inPos, hcall, hend, hall⟩
    exact (hcall.answers_eof_iff hend).mpr hall

end Call

/-- At the end of the input a field is converted, stored and counted as it would be with a newline
there, exactly when the end does not cut it short.  A call answers -1 when it has run out of
input with nothing stored, and so with no field converted exactly when, of those that were, some
was not suppressed. -/
theorem scanf_end_of_input_iff (side : HostSide) (m : Machine) :
    (∀ fields rest s₁ m₁ spec used conv behind,
      CallReads side.stdin true m fields ('%' :: rest) s₁ m₁ →
      parseScanSpec rest = (spec, used) → rest.drop used = conv :: behind →
      fieldStart conv side.stdin s₁.inPos < side.stdin.length →
      ∀ fields' s₂ m₂, CallReads (side.stdin ++ [newline]) true m fields' behind s₂ m₂ →
        (CallReads side.stdin true m fields' behind s₂ m₂ ↔
          ¬ CutShort spec conv side.stdin s₁.inPos)) ∧
    (∀ fields fmt s m', CallReads side.stdin true m fields fmt s m' →
      (s.inPos < side.stdin.length →
        CallReads (side.stdin ++ [newline]) true m fields fmt s m') ∧
      s.matched = (fields.filter fun spec => ! spec.suppress).length ∧
      ∃ pos side', ScratchOnly side side' ∧
        scanf.run side true m = (scanFrom pos 0 s fmt).run side' true m') ∧
    (CallAnswers (scanf.run side true m) (BitVec.allOnes 64) ↔
      ∃ fields fmt s m' inPos, CallReads side.stdin true m fields fmt s m' ∧
        MeetsEnd side.stdin true fmt s inPos ∧ ∀ spec ∈ fields, spec.suppress = true) ∧
    ∀ fields fmt s m' inPos, CallReads side.stdin true m fields fmt s m' →
      MeetsEnd side.stdin true fmt s inPos →
      ((CallAnswers (scanf.run side true m) (BitVec.allOnes 64) → fields = []) ↔
        (fields ≠ [] → ∃ spec ∈ fields, spec.suppress = false)) := by
  refine ⟨?_, ?_, callAnswers_eof_iff, ?_⟩
  · rintro fields rest s₁ m₁ spec used conv behind ⟨bytes, hread, hreads⟩ hspec hconv hstart
      fields' s₂ m₂ ⟨bytes', hread', hnewline⟩
    obtain rfl : bytes' = bytes := Except.ok.inj (hread'.symm.trans hread)
    have hlen := congrArg List.length hconv
    rw [List.length_drop, List.length_cons] at hlen
    have hle : behind.length ≤ ('%' :: rest).length := by
      rw [List.length_cons]
      omega
    have hstop : s₁.inPos < side.stdin.length := lt_of_le_of_lt (le_fieldStart conv _ _) hstart
    obtain ⟨more, rfl, hmore⟩ := (hreads.newline hstop).linear hnewline hle
    obtain ⟨stored, stop, hfield, htake, rfl⟩ := hmore.of_conversion hspec hconv
    have hcut := @scanField_newline _ _ spec _ hstart stored stop
    constructor
    · rintro ⟨bytes₂, hread₂, hreads₂⟩
      obtain rfl : bytes₂ = bytes' := Except.ok.inj (hread₂.symm.trans hread)
      obtain ⟨more, -, hmore₂⟩ := hreads.linear hreads₂ hle
      obtain ⟨stored₂, stop₂, hfield₂, -⟩ := hmore₂.of_conversion hspec hconv
      exact ((scanField_newline hstart).mp hfield₂).2
    · intro hnot
      have hstep := Reads.field hspec hconv (hcut.mpr ⟨hfield, hnot⟩) htake (.done behind s₂ m₂)
      exact ⟨bytes', hread, hreads.trans hstep⟩
  · intro fields fmt s m' h
    refine ⟨fun hstop => ?_, ?_, h.run⟩
    · obtain ⟨bytes, hread, h⟩ := h
      exact ⟨bytes, hread, h.newline hstop⟩
    · obtain ⟨bytes, -, h⟩ := h
      rw [h.matched_eq, Nat.zero_add]
  · intro fields fmt s m' inPos hcall hend
    rw [hcall.answers_eof_iff hend]
    constructor
    · intro hnone hsome
      by_contra hnot
      push Not at hnot
      exact hsome (hnone fun spec hmem => Bool.eq_true_of_not_eq_false (hnot spec hmem))
    · intro hkept hall
      by_contra hsome
      obtain ⟨spec, hmem, hsuppress⟩ := hkept hsome
      rw [hall spec hmem] at hsuppress
      cases hsuppress

/-- `scanf("%s", 0x500100)`. -/
def wordCall : Machine :=
  ⟨(RegisterFile.new.writeGpr 0 true 0x500000).writeGpr 1 true 0x500100,
    textMemory [0x25, 0x73, 0], HeapState.new⟩

/-- The word `abc` at the end of the input is read as no word at all. -/
theorem not_scanf_end_of_input :
    (CallAnswers (scanf.run { HostSide.idle with stdin := [0x61, 0x62, 0x63] } true wordCall)
        (BitVec.allOnes 64) ∧
      (scanf.run { HostSide.idle with stdin := [0x61, 0x62, 0x63] } true wordCall).1.mem.readU8
        0x500100 = .ok 0) ∧
    CallAnswers (scanf.run { HostSide.idle with stdin := [0x61, 0x62, 0x63, newline] } true
        wordCall) 1 ∧
      (scanf.run { HostSide.idle with stdin := [0x61, 0x62, 0x63, newline] } true
        wordCall).1.mem.readU8 0x500100 = .ok 0x61 := by
  unfold CallAnswers
  decide

end Hosted

end Playground
