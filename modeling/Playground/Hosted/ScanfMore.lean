/-
More input: a conversion that does not wait for it takes the same with any input behind.
-/
import Playground.Hosted.ScanfEnd

namespace Playground

namespace Hosted

open Exec

section Bytes

variable {buf : List Byte} {p : Byte → Bool}

/-- A run that ends before the end of the input ends there whatever comes behind. -/
theorem takeWhile_more (h : (buf.takeWhile p).length < buf.length) (more : List Byte) :
    (buf ++ more).takeWhile p = buf.takeWhile p := by
  rw [List.takeWhile_append, if_neg h.ne]

theorem takeWhile_drop_more {n : Nat} (hn : n ≤ buf.length)
    (h : n + ((buf.drop n).takeWhile p).length < buf.length) (more : List Byte) :
    ((buf ++ more).drop n).takeWhile p = (buf.drop n).takeWhile p := by
  rw [List.drop_append_of_le_length hn]
  exact takeWhile_more (by rw [List.length_drop]; omega) more

theorem getElem?_more {i : Nat} (hi : i < buf.length) (more : List Byte) :
    (buf ++ more)[i]? = buf[i]? := List.getElem?_append_left hi

theorem readSign_more (h : buf ≠ []) (more : List Byte) :
    readSign (buf ++ more) = readSign buf := by
  cases buf with
  | nil => exact absurd rfl h
  | cons b buf => rfl

/-- A 0x prefix at a place, where one counts. -/
def hexPrefixed (flexible : Bool) (buf : List Byte) (i : Nat) : Bool :=
  flexible && buf[i]? == some 0x30 && (buf[i + 1]? == some 0x78 || buf[i + 1]? == some 0x58)

theorem hexPrefixed_more {flexible : Bool} {i : Nat} (h : i + 1 < buf.length) (more : List Byte) :
    hexPrefixed flexible (buf ++ more) i = hexPrefixed flexible buf i := by
  rw [hexPrefixed, hexPrefixed, getElem?_more h, getElem?_more (by omega)]

theorem hexPrefixed_lt {flexible : Bool} {i : Nat} (h : hexPrefixed flexible buf i = true) :
    i + 1 < buf.length := by
  by_contra hlast
  rw [hexPrefixed, List.getElem?_eq_none (Nat.not_lt.mp hlast)] at h
  simp at h

/-- The digits behind a sign and a prefix. -/
def digitsAt (flexible : Bool) (base : Nat) (buf : List Byte) (i : Nat) : Nat × List Byte :=
  let start := if hexPrefixed flexible buf i then i + 2 else i
  (start, (buf.drop start).takeWhile
    (isDigitForBase · (if hexPrefixed flexible buf i then 16 else base)))

theorem digitsAt_le {flexible : Bool} {base i : Nat} (hi : i ≤ buf.length) :
    (digitsAt flexible base buf i).1 + (digitsAt flexible base buf i).2.length ≤ buf.length := by
  have hstart : (digitsAt flexible base buf i).1 ≤ buf.length := by
    unfold digitsAt
    cases hprefixed : hexPrefixed flexible buf i with
    | true => exact hexPrefixed_lt hprefixed
    | false => exact hi
  have hle := (List.takeWhile_sublist (p := (isDigitForBase · (if hexPrefixed flexible buf i
    then 16 else base))) (l := buf.drop (digitsAt flexible base buf i).1)).length_le
  rw [List.length_drop] at hle
  have hdigits : (digitsAt flexible base buf i).2.length ≤
      buf.length - (digitsAt flexible base buf i).1 := hle
  omega

/-- Digits that do not run into the end are the digits whatever comes behind them: a 0 that is
the last byte, and might have been of a prefix, is a digit itself. -/
theorem digitsAt_more {flexible : Bool} {i base : Nat} (hzero : isDigitForBase 0x30 base = true)
    (hi : i ≤ buf.length)
    (hstop : (digitsAt flexible base buf i).1 + (digitsAt flexible base buf i).2.length ≠
      buf.length) (more : List Byte) :
    hexPrefixed flexible (buf ++ more) i = hexPrefixed flexible buf i ∧
      digitsAt flexible base (buf ++ more) i = digitsAt flexible base buf i ∧
      (digitsAt flexible base buf i).1 + (digitsAt flexible base buf i).2.length < buf.length := by
  have hlt : (digitsAt flexible base buf i).1 + (digitsAt flexible base buf i).2.length <
      buf.length := lt_of_le_of_ne (digitsAt_le hi) hstop
  have hstart : (digitsAt flexible base buf i).1 ≤ buf.length := by omega
  have hhex : hexPrefixed flexible (buf ++ more) i = hexPrefixed flexible buf i := by
    by_cases hnext : i + 1 < buf.length
    · exact hexPrefixed_more hnext more
    cases hprefixed : hexPrefixed flexible buf i with
    | true => exact absurd (hexPrefixed_lt hprefixed) hnext
    | false =>
        simp only [digitsAt, hprefixed, Bool.false_eq_true, ↓reduceIte] at hlt
        have hhere : i < buf.length := by omega
        have hne : buf[i] ≠ 0x30 := by
          intro hget
          rw [List.drop_eq_getElem_cons hhere, hget, List.takeWhile_cons, if_pos hzero,
            List.length_cons] at hlt
          omega
        rw [hexPrefixed, getElem?_more hhere, List.getElem?_eq_getElem hhere,
          beq_false_of_ne (by simpa using hne), Bool.and_false, Bool.false_and]
  refine ⟨hhex, ?_, hlt⟩
  have hsame := takeWhile_drop_more hstart hlt more
  unfold digitsAt at hsame ⊢
  rw [hhex]
  exact Prod.ext rfl hsame

end Bytes

section Integers

variable {buf : List Byte}

theorem parseSignedInt_eq (buf : List Byte) (flexible complete : Bool) :
    parseSignedInt buf flexible complete =
      if buf = [] then .stalled
      else
        let sign := readSign buf
        let digits := digitsAt flexible 10 buf sign.2
        let stop := digits.1 + digits.2.length
        if stop = buf.length ∧ ¬ complete then .stalled
        else if digits.2 = [] then
          .read 0 (if hexPrefixed flexible buf sign.2 then digits.1 - 1 else 0)
        else
          let n := digitsValue (if hexPrefixed flexible buf sign.2 then 16 else 10) digits.2
          if n < 2 ^ 63 then .read (if sign.1 then -n else n) stop
          else .read (if sign.1 then -2 ^ 63 else 2 ^ 63 - 1) stop := rfl

theorem parseSignedInt_more {flexible : Bool}
    (h : parseSignedInt buf flexible false ≠ .stalled) (more : List Byte) (complete : Bool) :
    parseSignedInt (buf ++ more) flexible complete = parseSignedInt buf flexible false := by
  have hbuf : buf ≠ [] := by
    rintro rfl
    exact h rfl
  rw [parseSignedInt_eq, if_neg hbuf] at h
  rw [parseSignedInt_eq, parseSignedInt_eq, if_neg hbuf, if_neg (by simp [hbuf]),
    readSign_more hbuf]
  have hle := readSign_le buf
  dsimp only at h hle ⊢
  have hstop : (digitsAt flexible 10 buf (readSign buf).2).1 +
      (digitsAt flexible 10 buf (readSign buf).2).2.length ≠ buf.length := by
    intro hstop
    exact h (if_pos ⟨hstop, by decide⟩)
  obtain ⟨hhex, hdigits, hlt⟩ := digitsAt_more (by decide) hle hstop more
  have hstop' : (digitsAt flexible 10 buf (readSign buf).2).1 +
      (digitsAt flexible 10 buf (readSign buf).2).2.length ≠ (buf ++ more).length := by
    rw [List.length_append]
    omega
  rw [hhex, hdigits, if_neg (not_and_of_not_left _ hstop'),
    if_neg (not_and_of_not_left _ hstop)]

theorem parseUnsignedInt_eq (buf : List Byte) (base : Nat) (complete : Bool) :
    parseUnsignedInt buf base complete =
      if buf = [] then .stalled
      else
        let digits := digitsAt (base == 16) base buf 0
        let stop := digits.1 + digits.2.length
        if stop = buf.length ∧ ¬ complete then .stalled
        else if digits.2 = [] then .read 0 (if hexPrefixed (base == 16) buf 0 then 1 else 0)
        else .read (min (digitsValue base digits.2) (2 ^ 64 - 1)) stop := by
  have hbase : (if hexPrefixed (base == 16) buf 0 then 16 else base) = base := by
    split
    next h =>
      have hsixteen : (base == 16) = true := by
        rw [hexPrefixed, Bool.and_assoc, Bool.and_eq_true] at h
        exact h.1
      exact (beq_iff_eq.mp hsixteen).symm
    · rfl
  unfold digitsAt
  rw [hbase]
  rfl

theorem parseUnsignedInt_more {base : Nat} (hzero : isDigitForBase 0x30 base = true)
    (h : parseUnsignedInt buf base false ≠ .stalled) (more : List Byte) (complete : Bool) :
    parseUnsignedInt (buf ++ more) base complete = parseUnsignedInt buf base false := by
  have hbuf : buf ≠ [] := by
    rintro rfl
    exact h rfl
  rw [parseUnsignedInt_eq, if_neg hbuf] at h
  rw [parseUnsignedInt_eq, parseUnsignedInt_eq, if_neg hbuf, if_neg (by simp [hbuf])]
  dsimp only at h ⊢
  have hstop : (digitsAt (base == 16) base buf 0).1 +
      (digitsAt (base == 16) base buf 0).2.length ≠ buf.length := by
    intro hstop
    exact h (if_pos ⟨hstop, by decide⟩)
  obtain ⟨hhex, hdigits, hlt⟩ := digitsAt_more hzero (Nat.zero_le _) hstop more
  have hstop' : (digitsAt (base == 16) base buf 0).1 +
      (digitsAt (base == 16) base buf 0).2.length ≠ (buf ++ more).length := by
    rw [List.length_append]
    omega
  rw [hhex, hdigits, if_neg (not_and_of_not_left _ hstop'),
    if_neg (not_and_of_not_left _ hstop)]

end Integers

section Floats

variable {field : List Byte}

/-- Spelling that did not ask for a byte past the end is the same with more behind it. -/
theorem spell_more {word : List Byte} {i : Nat} (h : (spell field i word).1 = false)
    (more : List Byte) : spell (field ++ more) i word = spell field i word := by
  induction word generalizing i with
  | nil => rfl
  | cons want word ih =>
      rw [spell] at h
      rw [spell, spell]
      cases hi : field[i]? with
      | none =>
          rw [hi] at h
          cases h
      | some b =>
          rw [hi] at h
          rw [getElem?_more (List.getElem?_eq_some_iff.mp hi).1, hi]
          dsimp only at h ⊢
          split_ifs at h ⊢
          · exact ih h
          · rfl

theorem hit_of_spell_ok {word : List Byte} {i stop : Nat} {hit : Bool}
    (h : spell field i word = (hit, .ok stop)) : hit = false := by
  induction word generalizing i with
  | nil =>
      cases h
      rfl
  | cons want word ih =>
      rw [spell] at h
      split at h
      · split_ifs at h
        · exact ih h
        · cases h
      · cases h

theorem scanInfinity_more {start sign : Nat} (h : (scanInfinity field start sign).hitEnd = false)
    (more : List Byte) :
    scanInfinity (field ++ more) start sign = scanInfinity field start sign := by
  unfold scanInfinity at h ⊢
  rcases hspell : spell field start [0x69, 0x6E, 0x66] with ⟨hit, e | stop⟩
  · rw [hspell] at h
    rw [spell_more (by rw [hspell]; exact h), hspell]
  · obtain rfl := hit_of_spell_ok hspell
    rw [hspell] at h
    rw [spell_more (by rw [hspell]), hspell]
    dsimp only at h ⊢
    cases hi : field[stop]? with
    | none =>
        rw [hi] at h
        cases h
    | some b =>
        rw [hi] at h
        rw [getElem?_more (List.getElem?_eq_some_iff.mp hi).1, hi]
        dsimp only at h ⊢
        split_ifs at h ⊢
        · rcases hrest : spell field stop [0x69, 0x6E, 0x69, 0x74, 0x79] with ⟨hit, e | last⟩
          · rw [hrest] at h
            rw [spell_more (by rw [hrest]; exact h), hrest]
          · obtain rfl := hit_of_spell_ok hrest
            rw [spell_more (by rw [hrest]), hrest]
        · rfl

theorem scanNan_more {start sign : Nat} (h : (scanNan field start sign).hitEnd = false)
    (more : List Byte) : scanNan (field ++ more) start sign = scanNan field start sign := by
  unfold scanNan at h ⊢
  rcases hspell : spell field start [0x6E, 0x61, 0x6E] with ⟨hit, e | stop⟩
  · rw [hspell] at h
    rw [spell_more (by rw [hspell]; exact h), hspell]
  · obtain rfl := hit_of_spell_ok hspell
    rw [hspell] at h
    rw [spell_more (by rw [hspell]), hspell]
    dsimp only at h ⊢
    cases hi : field[stop]? with
    | none =>
        rw [hi] at h
        cases h
    | some b =>
        have hlt := (List.getElem?_eq_some_iff.mp hi).1
        rw [hi] at h
        rw [getElem?_more hlt, hi]
        dsimp only at h ⊢
        split_ifs at h ⊢
        · cases hclose : field[stop + 1 +
              ((field.drop (stop + 1)).takeWhile isAlphanumericOrUnderscore).length]? with
          | none =>
              rw [hclose] at h
              cases h
          | some b' =>
              have hbehind := (List.getElem?_eq_some_iff.mp hclose).1
              rw [takeWhile_drop_more (by omega) (by omega), getElem?_more hbehind, hclose]
        · rfl

theorem readDecimal_more {s : DecimalState} {bytes : List Byte}
    (h : (readDecimal s bytes).2.2 = false) (more : List Byte) :
    readDecimal s (bytes ++ more) = readDecimal s bytes := by
  induction bytes generalizing s with
  | nil => cases h
  | cons b bytes ih =>
      rw [readDecimal] at h
      rw [List.cons_append, readDecimal, readDecimal]
      cases hnext : s.next b with
      | none => rfl
      | some next =>
          rw [hnext] at h
          dsimp only
          rw [ih h]

theorem scanDecimal_more {start : Nat} (hstart : start ≤ field.length)
    (h : (scanDecimal field start).hitEnd = false) (more : List Byte) :
    scanDecimal (field ++ more) start = scanDecimal field start := by
  have hstop := length_readDecimal_le ⟨false, false, false, false, false⟩ (field.drop start)
  rw [List.length_drop] at hstop
  unfold scanDecimal at h ⊢
  rw [List.drop_append_of_le_length hstart]
  rcases hread : readDecimal ⟨false, false, false, false, false⟩ (field.drop start) with
    ⟨s, used, hit⟩
  rw [hread] at h hstop
  have hhit : hit = false := by
    dsimp only at h
    split_ifs at h <;> exact h
  rw [readDecimal_more (by rw [hread]; exact hhit), hread]
  dsimp only at hstop ⊢
  rw [List.take_append_of_le_length (by omega)]

/-- A scan that did not ask for a byte past the end is the same with more behind it. -/
theorem scanFloat_more (hfield : field ≠ []) (h : (scanFloat field).hitEnd = false)
    (more : List Byte) : scanFloat (field ++ more) = scanFloat field := by
  have hle := readSign_le field
  unfold scanFloat at h ⊢
  rw [readSign_more hfield]
  generalize readSign field = sign at h hle ⊢
  obtain ⟨negative, start⟩ := sign
  dsimp only at h hle ⊢
  generalize (if negative = true then 2 ^ 63 else 0 : Nat) = sign at h ⊢
  rcases Nat.eq_or_lt_of_le hle with heq | hlt
  · -- nothing but a sign: the scan asks for the byte behind it
    have hget : field[start]? = none := List.getElem?_eq_none heq.ge
    have hdrop : field.drop start = [] := List.drop_of_length_le heq.ge
    simp [hget, scanDecimal, hdrop, readDecimal] at h
  · rw [getElem?_more hlt]
    split_ifs at h ⊢
    · exact scanInfinity_more h more
    · exact scanNan_more h more
    · exact scanDecimal_more hle h more

theorem parseFloat_more {buf : List Byte} {width : Nat} {result : Except Nat (Word × Nat)}
    (h : parseFloat buf width false = some result) (more : List Byte) (closed : Bool) :
    parseFloat (buf ++ more) width closed = some result := by
  unfold parseFloat at h ⊢
  by_cases hbuf : buf = []
  · rw [if_pos hbuf] at h
    cases h
  rw [if_neg hbuf] at h
  rw [if_neg (by simp [hbuf])]
  dsimp only at h ⊢
  rcases Nat.lt_or_ge buf.length width with hlt | hge
  · have htake : buf.take width = buf := List.take_of_length_le hlt.le
    have hmore : (buf ++ more).take width = buf ++ more.take (width - buf.length) := by
      rw [List.take_append, htake]
    rw [htake] at h
    have hhit : (scanFloat buf).hitEnd = false := by
      by_contra hhit
      rw [Bool.not_eq_false] at hhit
      rw [if_pos ⟨hhit, by decide, hlt⟩] at h
      cases h
    rw [hhit, if_neg (by simp)] at h
    rw [hmore, scanFloat_more hbuf hhit, hhit, if_neg (by simp)]
    exact h
  · rw [if_neg (by omega)] at h
    rw [List.take_append_of_le_length hge, List.length_append, if_neg (by omega)]
    exact h

end Floats

section Field

variable {input : List Byte} {inPos : Nat} {spec : ScanSpec} {conv : Char}

theorem skipSpace_more (h : skipSpace input inPos < input.length) (more : List Byte) :
    skipSpace (input ++ more) inPos = skipSpace input inPos := by
  have hle := le_skipSpace input inPos
  unfold skipSpace at h ⊢
  rw [takeWhile_drop_more (by omega) h]

theorem skipSpace_le (h : inPos ≤ input.length) : skipSpace input inPos ≤ input.length := by
  have hle := (List.takeWhile_sublist (p := isCSpace) (l := input.drop inPos)).length_le
  rw [List.length_drop] at hle
  unfold skipSpace
  omega

/-- Whether a conversion waits. -/
def Field.waits : Field → Bool
  | .stalled _ => true
  | _ => false

theorem intField_waits {α : Type} {scanned : ScannedInt α} {bits : α → Word} {long : Bool}
    {start : Nat} (h : (intField scanned bits long start).waits = false) :
    scanned ≠ .stalled := by
  rintro rfl
  cases h

/-- An integer field, cut at its limit or at the end of the input. -/
theorem scan_more {α : Type} (scan : List Byte → Bool → ScannedInt α)
    (hscan : ∀ buf, scan buf false ≠ .stalled → ∀ more complete,
      scan (buf ++ more) complete = scan buf false) {start limit : Nat}
    (hstart : start ≤ input.length)
    (h : scan ((input.drop start).take limit) (decide (start + limit ≤ input.length) || false) ≠
      .stalled) (more : List Byte) (closed : Bool) :
    scan (((input ++ more).drop start).take limit)
        (decide (start + limit ≤ (input ++ more).length) || closed) =
      scan ((input.drop start).take limit) (decide (start + limit ≤ input.length) || false) := by
  have hlen : (input.drop start).length = input.length - start := List.length_drop
  rw [List.drop_append_of_le_length hstart]
  by_cases hlimit : start + limit ≤ input.length
  · have hmore : start + limit ≤ (input ++ more).length := by
      rw [List.length_append]
      omega
    rw [List.take_append_of_le_length (by omega), decide_eq_true hlimit, decide_eq_true hmore,
      Bool.true_or, Bool.true_or]
  · have htake : (input.drop start).take limit = input.drop start :=
      List.take_of_length_le (by omega)
    rw [decide_eq_false hlimit, Bool.or_false, htake] at h ⊢
    rw [List.take_append, htake]
    exact hscan _ h _ _

/-- A word that ends before the end of the input, or at the limit, ends there. -/
theorem wordBytes_more {start limit : Nat} (hstart : start ≤ input.length)
    (h : ¬ (start + (wordBytes input start limit).length = input.length ∧
      (wordBytes input start limit).length < limit)) (more : List Byte) :
    wordBytes (input ++ more) start limit = wordBytes input start limit ∧
      ¬ (start + (wordBytes input start limit).length = (input ++ more).length ∧
        (wordBytes input start limit).length < limit) := by
  have hlen : (input.drop start).length = input.length - start := List.length_drop
  have hword := length_wordBytes_le input start limit
  rw [List.length_append]
  rcases Nat.lt_or_ge (input.length - start) limit with hlt | hge
  · have htake : (input.drop start).take limit = input.drop start :=
      List.take_of_length_le (by omega)
    refine ⟨?_, by omega⟩
    unfold wordBytes at h hword ⊢
    rw [htake] at h hword
    rw [List.drop_append_of_le_length hstart, List.take_append, htake]
    exact takeWhile_more (by omega) _
  · refine ⟨?_, by omega⟩
    unfold wordBytes
    rw [List.drop_append_of_le_length hstart, List.take_append_of_le_length (by omega)]

/-- With nothing but white space ahead an integer waits. -/
theorem lt_of_read {α : Type} (scan : List Byte → Bool → ScannedInt α)
    (hscan : ∀ complete, scan [] complete = .stalled) {start limit : Nat} {complete : Bool}
    (h : scan ((input.drop start).take limit) complete ≠ .stalled) : start < input.length := by
  by_contra hend
  rw [List.drop_of_length_le (Nat.not_lt.mp hend), List.take_nil] at h
  exact h (hscan complete)

/-- A conversion that does not wait comes to the same with any input behind, more still to come
or not. -/
theorem scanField_more (h : (scanField spec conv input inPos false).waits = false)
    (more : List Byte) (closed : Bool) :
    scanField spec conv (input ++ more) inPos closed = scanField spec conv input inPos false := by
  unfold scanField at h ⊢
  by_cases hpercent : conv = '%'
  · rw [if_pos hpercent] at h ⊢
    rw [if_pos hpercent]
    cases hget : input[inPos]? with
    | none =>
        rw [hget] at h
        cases h
    | some b => rw [getElem?_more (List.getElem?_eq_some_iff.mp hget).1, hget]
  rw [if_neg hpercent] at h ⊢
  rw [if_neg hpercent]
  by_cases hchar : conv = 'c'
  · rw [if_pos hchar] at h ⊢
    rw [if_pos hchar]
    dsimp only at h ⊢
    by_cases hshort : input.length < inPos + max (spec.width.getD 1) 1
    · rw [if_pos hshort] at h
      cases h
    · rw [if_neg hshort, if_neg (by rw [List.length_append]; omega),
        List.drop_append_of_le_length (by omega),
        List.take_append_of_le_length (by rw [List.length_drop]; omega)]
  rw [if_neg hchar] at h ⊢
  rw [if_neg hchar]
  by_cases hint : conv = 'd' ∨ conv = 'i'
  · rw [if_pos hint] at h ⊢
    rw [if_pos hint]
    have hread := intField_waits h
    have hlt := lt_of_read (parseSignedInt · (conv == 'i') ·) (fun _ => rfl) hread
    rw [skipSpace_more hlt, scan_more (parseSignedInt · (conv == 'i') ·)
      (fun _ h => parseSignedInt_more h) hlt.le hread more closed]
  rw [if_neg hint] at h ⊢
  rw [if_neg hint]
  by_cases hunsigned : conv = 'u'
  · rw [if_pos hunsigned] at h ⊢
    rw [if_pos hunsigned]
    have hread := intField_waits h
    have hlt := lt_of_read (parseUnsignedInt · 10 ·) (fun _ => rfl) hread
    rw [skipSpace_more hlt, scan_more (parseUnsignedInt · 10 ·)
      (fun _ h => parseUnsignedInt_more (by decide) h) hlt.le hread more closed]
  rw [if_neg hunsigned] at h ⊢
  rw [if_neg hunsigned]
  by_cases hhex : conv = 'x' ∨ conv = 'X'
  · rw [if_pos hhex] at h ⊢
    rw [if_pos hhex]
    have hread := intField_waits h
    have hlt := lt_of_read (parseUnsignedInt · 16 ·) (fun _ => rfl) hread
    rw [skipSpace_more hlt, scan_more (parseUnsignedInt · 16 ·)
      (fun _ h => parseUnsignedInt_more (by decide) h) hlt.le hread more closed]
  rw [if_neg hhex] at h ⊢
  rw [if_neg hhex]
  by_cases hword : conv = 's'
  · rw [if_pos hword] at h ⊢
    rw [if_pos hword]
    by_cases hend : input.length ≤ skipSpace input inPos
    · rw [if_pos hend] at h
      cases h
    rw [if_neg hend] at h
    have hlt : skipSpace input inPos < input.length := Nat.lt_of_not_le hend
    have hrun : ¬ (skipSpace input inPos +
          (wordBytes input (skipSpace input inPos) (fieldLimit spec)).length = input.length ∧
        (wordBytes input (skipSpace input inPos) (fieldLimit spec)).length < fieldLimit spec) := by
      intro hrun
      rw [if_pos hrun] at h
      cases h
    obtain ⟨hsame, hrun'⟩ := wordBytes_more hlt.le hrun more
    rw [skipSpace_more hlt, if_neg hend, if_neg (by rw [List.length_append]; omega), hsame,
      if_neg hrun, if_neg hrun']
  rw [if_neg hword] at h ⊢
  rw [if_neg hword]
  by_cases hfloat : conv ∈ ['f', 'F', 'e', 'E', 'g', 'G']
  · rw [if_pos hfloat] at h ⊢
    rw [if_pos hfloat]
    cases hparse : parseFloat (input.drop (skipSpace input inPos)) (fieldLimit spec) false with
    | none =>
        rw [hparse] at h
        cases h
    | some result =>
        have hlt : skipSpace input inPos < input.length := by
          by_contra hend
          rw [List.drop_of_length_le (Nat.not_lt.mp hend)] at hparse
          cases hparse
        rw [skipSpace_more hlt, List.drop_append_of_le_length hlt.le,
          parseFloat_more hparse more closed]
  · rw [if_neg hfloat, if_neg hfloat]

end Field

section Taken

variable {buf field : List Byte}

theorem parseSignedInt_le {flexible complete : Bool} {value : Int} {consumed : Nat}
    (h : parseSignedInt buf flexible complete = .read value consumed) : consumed ≤ buf.length := by
  have hle := @digitsAt_le buf flexible 10 _ (readSign_le buf)
  rw [parseSignedInt_eq] at h
  dsimp only at h
  split_ifs at h
  all_goals
    cases h
    omega

theorem parseUnsignedInt_le {base value consumed : Nat} {complete : Bool}
    (h : parseUnsignedInt buf base complete = .read value consumed) : consumed ≤ buf.length := by
  have hle := @digitsAt_le buf (base == 16) base 0 (Nat.zero_le _)
  rw [parseUnsignedInt_eq] at h
  dsimp only at h
  split_ifs at h with _ _ _ hprefixed
  · cases h
    exact (hexPrefixed_lt hprefixed).le
  · cases h
    exact Nat.zero_le _
  · cases h
    exact hle

/-- How far a scan got, whether it succeeded or not. -/
def ScannedFloat.read (s : ScannedFloat) : Nat :=
  match s.result with
  | .ok (_, stop) => stop
  | .error stop => stop

theorem spell_le {word : List Byte} {i stop : Nat} (hi : i ≤ field.length)
    (h : (spell field i word).2 = .ok stop ∨ (spell field i word).2 = .error stop) :
    stop ≤ field.length := by
  induction word generalizing i with
  | nil =>
      rcases h with h | h
      · cases h
        exact hi
      · cases h
  | cons want word ih =>
      rw [spell] at h
      split at h
      · next hget =>
          have hlt := (List.getElem?_eq_some_iff.mp hget).1
          split_ifs at h
          · exact ih hlt h
          · rcases h with h | h
            · cases h
            · cases h
              exact hlt
      · rcases h with h | h
        · cases h
        · cases h
          exact hi

theorem scanInfinity_le {start sign : Nat} (hstart : start ≤ field.length) :
    (scanInfinity field start sign).read ≤ field.length := by
  unfold scanInfinity
  split
  · next hspell => exact spell_le hstart (.inr (congrArg Prod.snd hspell))
  next hspell =>
    have hfirst := spell_le hstart (.inl (congrArg Prod.snd hspell))
    split
    · exact hfirst
    · split_ifs
      · split
        · next hrest => exact spell_le hfirst (.inr (congrArg Prod.snd hrest))
        · next hrest => exact spell_le hfirst (.inl (congrArg Prod.snd hrest))
      · exact hfirst

theorem scanNan_le {start sign : Nat} (hstart : start ≤ field.length) :
    (scanNan field start sign).read ≤ field.length := by
  unfold scanNan
  split
  · next hspell => exact spell_le hstart (.inr (congrArg Prod.snd hspell))
  next stop hspell =>
    have hfirst := spell_le hstart (.inl (congrArg Prod.snd hspell))
    split
    · exact hfirst
    next hopen =>
      have hlt := (List.getElem?_eq_some_iff.mp hopen).1
      have htext := (List.takeWhile_sublist (p := isAlphanumericOrUnderscore)
        (l := field.drop (stop + 1))).length_le
      rw [List.length_drop] at htext
      split_ifs
      · dsimp only
        split
        · show stop + 1 + _ ≤ _
          omega
        next hclose =>
          have hlast := (List.getElem?_eq_some_iff.mp hclose).1
          split_ifs
          · exact hlast
          · exact hlast
      · exact hfirst

theorem scanDecimal_le {start : Nat} (hstart : start ≤ field.length) :
    (scanDecimal field start).read ≤ field.length := by
  have hused := length_readDecimal_le ⟨false, false, false, false, false⟩ (field.drop start)
  rw [List.length_drop] at hused
  unfold scanDecimal
  rcases hread : readDecimal ⟨false, false, false, false, false⟩ (field.drop start) with
    ⟨s, used, hit⟩
  rw [hread] at hused
  dsimp only at hused ⊢
  split_ifs
  · show start + used ≤ _
    omega
  · show start + used ≤ _
    omega

theorem scanFloat_le : (scanFloat field).read ≤ field.length := by
  have hle := readSign_le field
  unfold scanFloat
  dsimp only
  generalize (if (readSign field).1 = true then 2 ^ 63 else 0 : Nat) = sign
  split_ifs
  · exact scanInfinity_le hle
  · exact scanNan_le hle
  · exact scanDecimal_le hle

theorem parseFloat_le {width : Nat} {closed : Bool} {result : Except Nat (Word × Nat)}
    (h : parseFloat buf width closed = some result) :
    ScannedFloat.read ⟨false, result⟩ ≤ buf.length := by
  unfold parseFloat at h
  dsimp only at h
  split_ifs at h
  cases h
  exact scanFloat_le.trans (List.length_take_le' _ _)

end Taken

section Bounds

variable {input : List Byte} {inPos : Nat} {spec : ScanSpec} {conv : Char} {closed : Bool}

/-- The place a field leaves the call at. -/
def Field.stop : Field → Nat
  | .taken _ stop => stop
  | .mismatch stop => stop
  | .stalled stop => stop
  | .unknown => 0

theorem intField_stop_le {α : Type} {scanned : ScannedInt α} {bits : α → Word} {long : Bool}
    {start room : Nat}
    (hread : ∀ value consumed, scanned = .read value consumed → consumed ≤ room) :
    (intField scanned bits long start).stop ≤ start + room := by
  unfold intField
  split
  · exact Nat.le_add_right _ _
  next value consumed =>
    have hle := hread value consumed rfl
    split_ifs
    · exact Nat.le_add_right _ _
    · exact Nat.add_le_add_left hle _

theorem scanField_stop_le (h : inPos ≤ input.length) :
    (scanField spec conv input inPos closed).stop ≤ input.length := by
  have hstart := skipSpace_le h
  have hword := length_wordBytes_le input (skipSpace input inPos) (fieldLimit spec)
  have hfloat : ∀ {result : Except Nat (Word × Nat)},
      parseFloat (input.drop (skipSpace input inPos)) (fieldLimit spec) closed = some result →
      skipSpace input inPos + ScannedFloat.read ⟨false, result⟩ ≤ input.length := by
    intro result hparse
    have hle := parseFloat_le hparse
    rw [List.length_drop] at hle
    omega
  generalize hfield : (input.drop (skipSpace input inPos)).take (fieldLimit spec) = field
  have hroom : skipSpace input inPos + field.length ≤ input.length := by
    rw [← hfield, List.length_take, List.length_drop]
    omega
  unfold scanField
  dsimp only
  rw [hfield]
  split_ifs
  · split
    · exact h
    next hget =>
      split_ifs
      · exact h
      · exact (List.getElem?_eq_some_iff.mp hget).1
  · exact h
  · exact Nat.not_lt.mp ‹_›
  · exact (intField_stop_le fun _ _ => parseSignedInt_le).trans hroom
  · exact (intField_stop_le fun _ _ => parseUnsignedInt_le).trans hroom
  · exact (intField_stop_le fun _ _ => parseUnsignedInt_le).trans hroom
  · exact hstart
  · show _ + _ ≤ _
    omega
  · show _ + _ ≤ _
    omega
  · split
    · exact hstart
    · next hparse => exact hfloat hparse
    · next hparse => exact hfloat hparse
  · split
    · exact hstart
    · next hparse => exact hfloat hparse
    · next hparse => exact hfloat hparse
  · exact Nat.zero_le _

end Bounds

section Bounds

variable {input : List Byte} {inPos stop : Nat} {spec : ScanSpec} {conv : Char}
  {stored : Option Stored} {closed : Bool}

/-- Past the end of the input every conversion there is waits. -/
theorem scanField_past (hend : input.length ≤ inPos)
    (h : (scanField spec conv input inPos false).waits = false) :
    scanField spec conv input inPos false = .unknown := by
  have hstart : input.length ≤ skipSpace input inPos := hend.trans (le_skipSpace input inPos)
  have hget : input[inPos]? = none := List.getElem?_eq_none hend
  have hcount : 1 ≤ max (spec.width.getD 1) 1 := Nat.le_max_right _ _
  unfold scanField at h ⊢
  dsimp only at h ⊢
  rw [List.drop_of_length_le hstart, List.take_nil, hget] at h ⊢
  split_ifs at h ⊢
  any_goals cases h
  · omega
  · rfl

/-- Whether there is such a conversion is not a matter of the input. -/
theorem scanField_unknown (h : scanField spec conv input inPos closed = .unknown)
    (input' : List Byte) (inPos' : Nat) (closed' : Bool) :
    scanField spec conv input' inPos' closed' = .unknown := by
  have hint : ∀ {α : Type} {scanned : ScannedInt α} {bits : α → Word} {long : Bool} {start : Nat},
      intField scanned bits long start ≠ .unknown := by
    intro α scanned bits long start heq
    unfold intField at heq
    split at heq
    · cases heq
    · split_ifs at heq
  unfold scanField at h ⊢
  by_cases hpercent : conv = '%'
  · rw [if_pos hpercent] at h
    split at h
    · cases h
    · split_ifs at h
  rw [if_neg hpercent] at h ⊢
  by_cases hchar : conv = 'c'
  · rw [if_pos hchar] at h
    dsimp only at h
    split_ifs at h
  rw [if_neg hchar] at h ⊢
  by_cases hsigned : conv = 'd' ∨ conv = 'i'
  · rw [if_pos hsigned] at h
    exact absurd h hint
  rw [if_neg hsigned] at h ⊢
  by_cases hunsigned : conv = 'u'
  · rw [if_pos hunsigned] at h
    exact absurd h hint
  rw [if_neg hunsigned] at h ⊢
  by_cases hhex : conv = 'x' ∨ conv = 'X'
  · rw [if_pos hhex] at h
    exact absurd h hint
  rw [if_neg hhex] at h ⊢
  by_cases hword : conv = 's'
  · rw [if_pos hword] at h
    dsimp only at h
    split_ifs at h
  rw [if_neg hword] at h ⊢
  by_cases hfloat : conv ∈ ['f', 'F', 'e', 'E', 'g', 'G']
  · rw [if_pos hfloat] at h
    split at h <;> cases h
  rw [if_neg hfloat]

end Bounds

end Hosted

end Playground
