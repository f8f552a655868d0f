/-
`strtol` and `atoi`: the grammar of a number in a base, and two readers of it.
-/
import Playground.Hosted.Arguments
import Playground.Hosted.CString
import Playground.Hosted.Utf8
import Playground.Library.Numerals

namespace Playground

namespace Hosted

open Exec Numerals

/-- C's isspace in the default locale. -/
def isCSpace (b : Byte) : Bool :=
  decide (b ∈ ([0x20, 0x09, 0x0A, 0x0C, 0x0D] : List Byte)) || b == 0x0B

def digitValue (b : Byte) (base : Nat) : Option Nat :=
  let value : Option Nat :=
    if 0x30 ≤ b ∧ b ≤ 0x39 then some (b.toNat - 0x30)
    else if 0x61 ≤ b ∧ b ≤ 0x7A then some (b.toNat - 0x61 + 10)
    else if 0x41 ≤ b ∧ b ≤ 0x5A then some (b.toNat - 0x41 + 10)
    else none
  value.filter fun value => decide (value < base)

/-- The sign at the start, and the bytes it takes. -/
def readSign : List Byte → Bool × Nat
  | b :: _ => if b = 0x2D then (true, 1) else if b = 0x2B then (false, 1) else (false, 0)
  | [] => (false, 0)

/-- The 0x prefix counts only when a hex digit actually follows it. -/
def hexPrefix : List Byte → Bool
  | b :: x :: d :: _ =>
      b == 0x30 && (x == 0x78 || x == 0x58) && (digitValue d 16).isSome
  | _ => false

/-- The base of the digits, and the bytes of the prefix. -/
def readRadix (bytes : List Byte) (base : Nat) : Nat × Nat :=
  if base = 0 then
    if hexPrefix bytes then (16, 2)
    else if bytes.head? = some 0x30 then (8, 0)
    else (10, 0)
  else if base = 16 ∧ hexPrefix bytes then (16, 2)
  else (base, 0)

/-- The accumulator of the digits: the magnitude, whether it passed the limit, and how many
digits there were. -/
def readDigits (base limit : Nat) : Nat × Bool × Nat → List Byte → Nat × Bool × Nat
  | state, [] => state
  | (magnitude, overflowed, digits), b :: rest =>
      match digitValue b base with
      | some d =>
          let magnitude := saturatingAdd (min (magnitude * base) (2 ^ 64 - 1)) d
          readDigits base limit (magnitude, overflowed || decide (limit < magnitude), digits + 1)
            rest
      | none => (magnitude, overflowed, digits)

def longValue (negative overflowed : Bool) (magnitude : Nat) : Word :=
  if overflowed then
    if negative then BitVec.intMin 64 else BitVec.intMax 64
  else if negative then -BitVec.ofNat 64 magnitude
  else BitVec.ofNat 64 magnitude

/-- The value of a long, and how many bytes of the string it used. -/
def parseStrtol (bytes : List Byte) (base : Int) : Word × Nat :=
  -- an impossible base converts nothing at all
  if base ≠ 0 ∧ ¬ (2 ≤ base ∧ base ≤ 36) then (0, 0)
  else
    let spaces := (bytes.takeWhile isCSpace).length
    let signed := bytes.dropWhile isCSpace
    let (negative, signs) := readSign signed
    let unsigned := signed.drop signs
    let (radix, skipped) := readRadix unsigned base.toNat
    let limit := if negative then 2 ^ 63 else 2 ^ 63 - 1
    let (magnitude, overflowed, digits) :=
      readDigits radix limit (0, false, 0) (unsigned.drop skipped)
    -- no conversion: the end goes back to the very start
    if digits = 0 then (0, 0)
    else (longValue negative overflowed magnitude, spaces + signs + skipped + digits)

/-- strtol(nptr, endptr, base). -/
def strtol : Exec HostOutcome := do
  let nptr ← readGpr 0 true
  let endptr ← readGpr 1 true
  let base ← readGpr 2 false
  let bytes ← attempt fun m => readCString m.mem nptr "strtol's string"
  let (value, consumed) := parseStrtol bytes (base.setWidth 32).toInt
  if endptr ≠ 0 then
    writeU64 endptr (nptr + BitVec.ofNat 64 consumed)
  answer value

/-- The decimal digit a character is. -/
def toDigit (c : Char) : Option Nat :=
  if 0x30 ≤ c.toNat ∧ c.toNat ≤ 0x39 then some (c.toNat - 0x30) else none

/-- A wrapping accumulator over the digits at the start. -/
def wrapDigits : Word → List Char → Word
  | value, [] => value
  | value, c :: rest =>
      match toDigit c with
      | some d => wrapDigits (value * 10 + BitVec.ofNat 64 d) rest
      | none => value

/-- The sign at the start of a text, and what comes after it. -/
def stripSign : List Char → Bool × List Char
  | c :: rest =>
      if c = '-' then (true, rest) else if c = '+' then (false, rest) else (false, c :: rest)
  | [] => (false, [])

/-- What `atoi` makes of a string. -/
def parseAtoi (bytes : List Byte) : Word :=
  let trimmed := (fromUtf8Lossy bytes).dropWhile isWhitespace
  let (negative, digits) := stripSign trimmed
  let value := wrapDigits 0 digits
  let value := if negative then -value else value
  -- an int, so that w0 and x0 agree
  (value.setWidth 32).signExtend 64

/-- atoi(s). -/
def atoi : Exec HostOutcome := do
  let ptr ← readGpr 0 true
  let bytes ← attempt fun m => readCString m.mem ptr "atoi"
  answer (parseAtoi bytes)

example : parseStrtol [0x20, 0x2D, 0x30, 0x78, 0x31, 0x46, 0x67] 0 = (-31, 6) := by decide

/-- The white space of C. -/
def IsSpace (b : Byte) : Prop := b = 0x20 ∨ (0x09 ≤ b ∧ b ≤ 0x0D)

theorem isCSpace_iff : ∀ b, isCSpace b = true ↔ IsSpace b := by
  unfold IsSpace
  decide

/-- Digits of a base, one byte each. -/
def Spells (base : Nat) (word : List Byte) (digits : List Nat) : Prop :=
  word.map (fun b => digitValue b base) = digits.map some

inductive SignWord : List Byte → Bool → Prop
  | absent : SignWord [] false
  | plus : SignWord [0x2B] false
  | minus : SignWord [0x2D] true

/-- The prefix of a number, the digits after it and their base. -/
inductive Notation (base : Nat) : List Byte → List Byte → Nat → Prop
  | hex {x : Byte} {digits : List Byte} (hbase : base = 0 ∨ base = 16)
      (hx : x = 0x78 ∨ x = 0x58) : Notation base [0x30, x] digits 16
  | octal {digits : List Byte} (hbase : base = 0) : Notation base [] (0x30 :: digits) 8
  | decimal {b : Byte} {digits : List Byte} (hbase : base = 0) (hb : b ≠ 0x30) :
      Notation base [] (b :: digits) 10
  | given {digits : List Byte} (hlow : 2 ≤ base) (hhigh : base ≤ 36) :
      Notation base [] digits base

/-- A number without its sign. -/
def Unsigned (base : Nat) (word : List Byte) (magnitude : Nat) : Prop :=
  ∃ lead digits radix values, word = lead ++ digits ∧ Notation base lead digits radix ∧
    digits ≠ [] ∧ Spells radix digits values ∧ magnitude = value radix values

/-- A word of the grammar [sign][0x][digits]. -/
def Subject (base : Nat) (word : List Byte) (negative : Bool) (magnitude : Nat) : Prop :=
  ∃ sign rest, word = sign ++ rest ∧ SignWord sign negative ∧ Unsigned base rest magnitude

/-- A number held in the range of a long. -/
def saturated (negative : Bool) (magnitude : Nat) : Int :=
  if negative then -(min magnitude (2 ^ 63) : Nat) else (min magnitude (2 ^ 63 - 1) : Nat)

/-- Exactly the white space is skipped; the longest word of the grammar after it is converted,
and the bytes used end with it, or there is no such word and none are used. -/
def Converts (bytes : List Byte) (base : Nat) (result : Word × Nat) : Prop :=
  ∃ spaces rest, bytes = spaces ++ rest ∧ (∀ b ∈ spaces, IsSpace b) ∧
    (∀ b ∈ rest.head?, ¬ IsSpace b) ∧
    ((∃ word negative magnitude, word <+: rest ∧ Subject base word negative magnitude ∧
        (∀ other sign n, other <+: rest → Subject base other sign n →
          other.length ≤ word.length) ∧
        result = (BitVec.ofInt 64 (saturated negative magnitude), spaces.length + word.length)) ∨
      ((∀ other sign n, other <+: rest → ¬ Subject base other sign n) ∧ result = (0, 0)))

def leadingDigits (base : Nat) : List Byte → List Nat
  | [] => []
  | b :: rest =>
      match digitValue b base with
      | some d => d :: leadingDigits base rest
      | none => []

section Digits

variable {base : Nat}

theorem spells_leadingDigits (bytes : List Byte) :
    Spells base (bytes.take (leadingDigits base bytes).length) (leadingDigits base bytes) := by
  induction bytes with
  | nil => rfl
  | cons b bytes ih =>
      rw [leadingDigits]
      cases hb : digitValue b base with
      | none => rfl
      | some d =>
          simp only [Spells, List.length_cons, List.take_succ_cons, List.map_cons, hb]
          exact congrArg (some d :: ·) ih

theorem prefix_leadingDigits {word rest : List Byte} {digits : List Nat}
    (h : Spells base word digits) :
    leadingDigits base (word ++ rest) = digits ++ leadingDigits base rest := by
  induction word generalizing digits with
  | nil =>
      cases digits with
      | nil => rfl
      | cons d digits => cases h
  | cons b word ih =>
      cases digits with
      | nil => cases h
      | cons d digits =>
          simp only [Spells, List.map_cons, List.cons.injEq] at h
          rw [List.cons_append, leadingDigits, h.1]
          simp only
          rw [ih h.2, List.cons_append]

theorem length_le_leadingDigits {word bytes : List Byte} {digits : List Nat}
    (h : Spells base word digits) (hword : word <+: bytes) :
    word.length ≤ (leadingDigits base bytes).length := by
  obtain ⟨rest, rfl⟩ := hword
  have hlen := congrArg List.length h
  rw [List.length_map, List.length_map] at hlen
  rw [prefix_leadingDigits h, List.length_append, hlen]
  exact Nat.le_add_right _ _

theorem length_leadingDigits_le (base : Nat) (bytes : List Byte) :
    (leadingDigits base bytes).length ≤ bytes.length := by
  induction bytes with
  | nil => exact le_rfl
  | cons b bytes ih =>
      unfold leadingDigits
      split
      · exact Nat.succ_le_succ ih
      · exact Nat.zero_le _

/-- The accumulator is the number, held under the top of a word; it passes a limit below that
when the number does. -/
theorem readDigits_eq (hbase : 1 ≤ base) {limit : Nat} (hlimit : limit < 2 ^ 64 - 1)
    (n k : Nat) (bytes : List Byte) :
    readDigits base limit (min n (2 ^ 64 - 1), decide (limit < n), k) bytes =
      (min (valueFrom base n (leadingDigits base bytes)) (2 ^ 64 - 1),
        decide (limit < valueFrom base n (leadingDigits base bytes)),
        k + (leadingDigits base bytes).length) := by
  induction bytes generalizing n k with
  | nil => rfl
  | cons b bytes ih =>
      unfold readDigits leadingDigits
      cases hb : digitValue b base with
      | none => rfl
      | some d =>
          have hstep : saturatingAdd (min (min n (2 ^ 64 - 1) * base) (2 ^ 64 - 1)) d =
              min (n * base + d) (2 ^ 64 - 1) :=
            saturatingFrom_eq hbase n [d]
          have hmul : n ≤ n * base := Nat.le_mul_of_pos_right n hbase
          have hover : (decide (limit < n) || decide (limit < min (n * base + d) (2 ^ 64 - 1))) =
              decide (limit < n * base + d) := by
            rw [← Bool.decide_or, decide_eq_decide]
            omega
          have hlen : k + 1 + (leadingDigits base bytes).length =
              k + (d :: leadingDigits base bytes).length := by
            rw [List.length_cons, Nat.add_right_comm, Nat.add_assoc]
          simp only
          rw [hstep, hover, ih, hlen]
          rfl

end Digits

section Grammar

variable {base : Nat}

variable {word bytes : List Byte}

theorem hexPrefix_iff (bytes : List Byte) :
    hexPrefix bytes = true ↔ ∃ x d rest, bytes = 0x30 :: x :: d :: rest ∧
      (x = 0x78 ∨ x = 0x58) ∧ (digitValue d 16).isSome = true := by
  constructor
  · intro h
    unfold hexPrefix at h
    split at h
    next b x d rest =>
      simp only [Bool.and_eq_true, beq_iff_eq, Bool.or_eq_true] at h
      obtain ⟨⟨rfl, hx⟩, hd⟩ := h
      exact ⟨x, d, rest, rfl, hx, hd⟩
    next => cases h
  · rintro ⟨x, d, rest, rfl, hx, hd⟩
    rcases hx with rfl | rfl <;> simp [hexPrefix, hd]

theorem leadingDigits_ne_nil {b : Byte} (h : (digitValue b base).isSome = true)
    (rest : List Byte) : leadingDigits base (b :: rest) ≠ [] := by
  obtain ⟨d, hd⟩ := Option.isSome_iff_exists.mp h
  rw [leadingDigits, hd]
  exact List.cons_ne_nil _ _

/-- A digit at the start of a word that spells something. -/
theorem isSome_of_spells {b : Byte} {digits : List Nat}
    (h : Spells base (b :: word) digits) : (digitValue b base).isSome = true := by
  cases digits with
  | nil => cases h
  | cons d digits =>
      simp only [Spells, List.map_cons, List.cons.injEq] at h
      rw [h.1]
      rfl

/-- The letter of the hex prefix is a digit of neither base a plain zero could have. -/
theorem leadingDigits_zero_x {x : Byte} (hx : x = 0x78 ∨ x = 0x58) (rest : List Byte)
    {radix : Nat} (hradix : radix = 8 ∨ radix = 16) :
    leadingDigits radix (0x30 :: x :: rest) = [0] := by
  have hzero : digitValue 0x30 radix = some 0 := by
    rcases hradix with rfl | rfl <;> decide
  have hletter : digitValue x radix = none := by
    rcases hradix with rfl | rfl <;> rcases hx with rfl | rfl <;> decide
  rw [leadingDigits, hzero]
  simp only
  rw [leadingDigits, hletter]

/-- Behind a hex prefix no word is longer than the hex one. -/
theorem unsigned_le_hex {x : Byte} {rest : List Byte} {n : Nat}
    (hx : x = 0x78 ∨ x = 0x58) (hbase : base = 0 ∨ base = 16)
    (hrest : leadingDigits 16 rest ≠ []) (hword : word <+: 0x30 :: x :: rest)
    (h : Unsigned base word n) : word.length ≤ 2 + (leadingDigits 16 rest).length := by
  have hpos := List.length_pos_iff.mpr hrest
  have hplain : ∀ (radix : Nat) (values : List Nat), radix = 8 ∨ radix = 16 →
      Spells radix word values → word.length ≤ 2 + (leadingDigits 16 rest).length := by
    intro radix values hradix hspells
    have hle := length_le_leadingDigits hspells hword
    rw [leadingDigits_zero_x hx rest hradix, List.length_singleton] at hle
    omega
  obtain ⟨lead, digits, radix, values, rfl, hspelling, -, hspells, -⟩ := h
  cases hspelling with
  | hex hbase' hx' =>
      have hdigits : digits <+: rest := by
        obtain ⟨tail, htail⟩ := hword
        simp only [List.cons_append, List.nil_append, List.cons.injEq, true_and] at htail
        exact ⟨tail, htail.2⟩
      have hle := length_le_leadingDigits hspells hdigits
      rw [List.length_append, List.length_cons, List.length_singleton]
      omega
  | octal hbase' => exact hplain 8 values (.inl rfl) hspells
  | decimal hbase' hb =>
      obtain ⟨tail, htail⟩ := hword
      simp only [List.nil_append, List.cons_append, List.cons.injEq] at htail
      exact absurd htail.1 hb
  | given hlow hhigh =>
      have hradix : base = 16 := by omega
      exact hplain base values (.inr hradix) hspells

/-- Without one, a word is digits of the base that is read. -/
theorem unsigned_plain {n : Nat}
    (hplain : ¬ ((base = 0 ∨ base = 16) ∧ hexPrefix bytes = true)) (hword : word <+: bytes)
    (h : Unsigned base word n) : readRadix bytes base = ((readRadix bytes base).1, 0) ∧
      word ≠ [] ∧ ∃ values, Spells (readRadix bytes base).1 word values := by
  obtain ⟨lead, digits, radix, values, rfl, hspelling, hne, hspells, -⟩ := h
  obtain ⟨tail, rfl⟩ := hword
  cases hspelling with
  | @hex x _ hbase hx =>
      refine absurd ⟨hbase, ?_⟩ hplain
      obtain ⟨d, digits, rfl⟩ := List.exists_cons_of_ne_nil hne
      exact (hexPrefix_iff _).mpr ⟨x, d, digits ++ tail, rfl, hx, isSome_of_spells hspells⟩
  | @octal digits hbase =>
      subst hbase
      have hno : hexPrefix ([] ++ 0x30 :: digits ++ tail) ≠ true :=
        fun hx => hplain ⟨.inl rfl, hx⟩
      have hradix : readRadix ([] ++ 0x30 :: digits ++ tail) 0 = (8, 0) := by
        rw [readRadix, if_pos rfl, if_neg hno]
        rfl
      rw [hradix]
      exact ⟨rfl, hne, values, hspells⟩
  | @decimal b digits hbase hb =>
      subst hbase
      have hno : hexPrefix ([] ++ b :: digits ++ tail) ≠ true :=
        fun hx => hplain ⟨.inl rfl, hx⟩
      have hradix : readRadix ([] ++ b :: digits ++ tail) 0 = (10, 0) := by
        rw [readRadix, if_pos rfl, if_neg hno, if_neg]
        simpa using hb
      rw [hradix]
      exact ⟨rfl, hne, values, hspells⟩
  | given hlow hhigh =>
      have hradix : readRadix ([] ++ digits ++ tail) base = (base, 0) := by
        rw [readRadix, if_neg (by omega), if_neg]
        exact fun hx => hplain ⟨.inr hx.1, hx.2⟩
      rw [hradix]
      exact ⟨rfl, hne, values, hspells⟩

/-- The leading digits, spelled in a base that their notation calls for. -/
theorem unsigned_take {radix : Nat} (hne : leadingDigits radix bytes ≠ [])
    (hspelling : ∀ b rest, bytes = b :: rest → ∀ digits, Notation base [] (b :: digits) radix) :
    Unsigned base (bytes.take (leadingDigits radix bytes).length)
      (value radix (leadingDigits radix bytes)) := by
  cases bytes with
  | nil => exact absurd rfl hne
  | cons b rest =>
      have hpos := List.length_pos_iff.mpr hne
      obtain ⟨k, hk⟩ := Nat.exists_eq_succ_of_ne_zero (Nat.ne_of_gt hpos)
      refine ⟨[], _, radix, leadingDigits radix (b :: rest), rfl, ?_, ?_,
        spells_leadingDigits (b :: rest), rfl⟩
      · rw [hk, List.take_succ_cons]
        exact hspelling b rest rfl _
      · rw [hk, List.take_succ_cons]
        exact List.cons_ne_nil _ _

/-- The digits behind a hex prefix. -/
theorem unsigned_take_hex (hbase : base = 0 ∨ base = 16) (hfront : hexPrefix bytes = true) :
    Unsigned base (bytes.take (2 + (leadingDigits 16 (bytes.drop 2)).length))
      (value 16 (leadingDigits 16 (bytes.drop 2))) := by
  obtain ⟨x, d, rest, rfl, hx, hd⟩ := (hexPrefix_iff bytes).mp hfront
  have hpos := List.length_pos_iff.mpr (leadingDigits_ne_nil hd rest)
  obtain ⟨k, hk⟩ := Nat.exists_eq_succ_of_ne_zero (Nat.ne_of_gt hpos)
  refine ⟨[0x30, x], (d :: rest).take (leadingDigits 16 (d :: rest)).length, 16,
    leadingDigits 16 (d :: rest), ?_, .hex hbase hx, ?_, spells_leadingDigits (d :: rest), rfl⟩
  · rw [Nat.add_comm]
    rfl
  · rw [hk, List.take_succ_cons]
    exact List.cons_ne_nil _ _

/-- The digits read are a word, if there are any. -/
theorem unsigned_read (hbase : base = 0 ∨ (2 ≤ base ∧ base ≤ 36))
    {radix skipped : Nat} (hread : readRadix bytes base = (radix, skipped))
    (hne : leadingDigits radix (bytes.drop skipped) ≠ []) :
    Unsigned base (bytes.take (skipped + (leadingDigits radix (bytes.drop skipped)).length))
      (value radix (leadingDigits radix (bytes.drop skipped))) := by
  unfold readRadix at hread
  split_ifs at hread with hzero hfront hoctal hfront <;>
    obtain ⟨rfl, rfl⟩ := Prod.mk.inj hread
  · exact unsigned_take_hex (.inl hzero) hfront
  · rw [List.drop_zero, Nat.zero_add] at *
    refine unsigned_take hne fun b rest hbytes digits => ?_
    subst hbytes
    obtain rfl := Option.some.inj hoctal
    exact .octal hzero
  · rw [List.drop_zero, Nat.zero_add] at *
    refine unsigned_take hne fun b rest hbytes digits => .decimal hzero fun hb => hoctal ?_
    rw [hbytes, hb]
    rfl
  · exact unsigned_take_hex (.inr hfront.1) hfront.2
  · rw [List.drop_zero, Nat.zero_add] at *
    exact unsigned_take hne fun b rest _ digits => .given (by omega) (by omega)

/-- No word is longer than what is read, and there is none if no digits are. -/
theorem unsigned_longest {n radix skipped : Nat}
    (hread : readRadix bytes base = (radix, skipped)) (hword : word <+: bytes)
    (h : Unsigned base word n) :
    leadingDigits radix (bytes.drop skipped) ≠ [] ∧
      word.length ≤ skipped + (leadingDigits radix (bytes.drop skipped)).length := by
  by_cases hhex : (base = 0 ∨ base = 16) ∧ hexPrefix bytes = true
  · obtain ⟨hbase, hfront⟩ := hhex
    have hradix : readRadix bytes base = (16, 2) := by
      rcases hbase with rfl | rfl
      · rw [readRadix, if_pos rfl, if_pos hfront]
      · rw [readRadix, if_neg (by decide), if_pos ⟨rfl, hfront⟩]
    obtain ⟨x, d, rest, rfl, hx, hd⟩ := (hexPrefix_iff bytes).mp hfront
    obtain ⟨rfl, rfl⟩ := Prod.mk.inj (hradix.symm.trans hread)
    have hne := leadingDigits_ne_nil hd rest
    exact ⟨hne, unsigned_le_hex hx hbase hne hword h⟩
  · obtain ⟨hplain, hne, values, hspells⟩ := unsigned_plain hhex hword h
    obtain ⟨rfl, rfl⟩ := Prod.mk.inj (hplain.symm.trans hread)
    have hle := length_le_leadingDigits hspells hword
    have hpos := List.length_pos_iff.mpr hne
    rw [List.drop_zero, Nat.zero_add]
    exact ⟨List.length_pos_iff.mp (by omega), hle⟩

/-- A number without its sign starts with no sign. -/
theorem head_of_unsigned {n : Nat} (h : Unsigned base word n) :
    ∃ b rest, word = b :: rest ∧ b ≠ 0x2B ∧ b ≠ 0x2D := by
  have hdigit : ∀ (b : Byte) (radix : Nat), (digitValue b radix).isSome = true →
      b ≠ 0x2B ∧ b ≠ 0x2D := by
    intro b radix hb
    constructor <;> rintro rfl <;> cases hb
  obtain ⟨lead, digits, radix, values, rfl, hspelling, hne, hspells, -⟩ := h
  obtain ⟨b, digits, rfl⟩ := List.exists_cons_of_ne_nil hne
  have hb := hdigit b radix (isSome_of_spells hspells)
  cases hspelling with
  | hex _ _ => exact ⟨0x30, _, rfl, by decide, by decide⟩
  | octal _ => exact ⟨0x30, _, rfl, hb⟩
  | decimal _ _ => exact ⟨b, _, rfl, hb⟩
  | given _ _ => exact ⟨b, _, rfl, hb⟩

theorem readSign_of_ne {b : Byte} (hplus : b ≠ 0x2B) (hminus : b ≠ 0x2D) (rest : List Byte) :
    readSign (b :: rest) = (false, 0) := by
  show (if b = 0x2D then (true, 1) else if b = 0x2B then (false, 1) else (false, 0)) = _
  rw [if_neg hminus, if_neg hplus]

theorem signWord_readSign (bytes : List Byte) :
    SignWord (bytes.take (readSign bytes).2) (readSign bytes).1 := by
  cases bytes with
  | nil => exact .absent
  | cons b rest =>
      by_cases hminus : b = 0x2D
      · subst hminus
        exact .minus
      · by_cases hplus : b = 0x2B
        · subst hplus
          exact .plus
        · rw [readSign_of_ne hplus hminus]
          exact .absent

theorem readSign_le (bytes : List Byte) : (readSign bytes).2 ≤ bytes.length := by
  cases bytes with
  | nil => exact le_rfl
  | cons b rest =>
      rw [readSign, List.length_cons]
      split_ifs <;> simp

/-- The sign of a word at the start of the bytes is the one that is read. -/
theorem subject_sign {negative : Bool} {n : Nat}
    (hword : word <+: bytes) (h : Subject base word negative n) :
    (readSign bytes).1 = negative ∧ ∃ rest, word = bytes.take (readSign bytes).2 ++ rest ∧
      rest <+: bytes.drop (readSign bytes).2 ∧ Unsigned base rest n := by
  obtain ⟨sign, rest, rfl, hsign, hunsigned⟩ := h
  obtain ⟨tail, rfl⟩ := hword
  cases hsign with
  | absent =>
      obtain ⟨b, more, rfl, hplus, hminus⟩ := head_of_unsigned hunsigned
      have hread : readSign ([] ++ b :: more ++ tail) = (false, 0) :=
        readSign_of_ne hplus hminus (more ++ tail)
      rw [hread]
      exact ⟨rfl, b :: more, rfl, ⟨tail, rfl⟩, hunsigned⟩
  | plus => exact ⟨rfl, rest, rfl, ⟨tail, rfl⟩, hunsigned⟩
  | minus => exact ⟨rfl, rest, rfl, ⟨tail, rfl⟩, hunsigned⟩

end Grammar

/-- It is the number held in range. -/
theorem longValue_eq (negative : Bool) (n : Nat) :
    longValue negative (decide ((if negative then 2 ^ 63 else 2 ^ 63 - 1) < n))
      (min n (2 ^ 64 - 1)) = BitVec.ofInt 64 (saturated negative n) := by
  unfold longValue saturated
  cases negative with
  | true =>
      simp only [↓reduceIte, decide_eq_true_eq]
      by_cases hover : 2 ^ 63 < n
      · have hmin : min n (2 ^ 63) = 2 ^ 63 := by omega
        rw [if_pos hover, hmin]
        rfl
      · have hmin : min n (2 ^ 63) = n := by omega
        have hmin' : min n (2 ^ 64 - 1) = n := by omega
        rw [if_neg hover, hmin, hmin', BitVec.ofInt_neg, BitVec.ofInt_natCast]
  | false =>
      simp only [Bool.false_eq_true, ↓reduceIte, decide_eq_true_eq]
      by_cases hover : 2 ^ 63 - 1 < n
      · have hmin : min n (2 ^ 63 - 1) = 2 ^ 63 - 1 := by omega
        rw [if_pos hover, hmin]
        rfl
      · have hmin : min n (2 ^ 63 - 1) = n := by omega
        have hmin' : min n (2 ^ 64 - 1) = n := by omega
        rw [if_neg hover, hmin, hmin', BitVec.ofInt_natCast]

/-- The reader, over the leading digits. -/
theorem parseStrtol_eq (bytes : List Byte) (base : Nat)
    (hbase : base = 0 ∨ (2 ≤ base ∧ base ≤ 36)) {signed : List Byte} {negative : Bool}
    {signs radix skipped : Nat} (hsigned : bytes.dropWhile isCSpace = signed)
    (hsign : readSign signed = (negative, signs))
    (hradix : readRadix (signed.drop signs) base = (radix, skipped)) :
    parseStrtol bytes base =
      if leadingDigits radix ((signed.drop signs).drop skipped) = [] then (0, 0)
      else (BitVec.ofInt 64 (saturated negative
          (value radix (leadingDigits radix ((signed.drop signs).drop skipped)))),
        (bytes.takeWhile isCSpace).length + signs + skipped +
          (leadingDigits radix ((signed.drop signs).drop skipped)).length) := by
  have hgood : ¬ ((base : Int) ≠ 0 ∧ ¬ (2 ≤ (base : Int) ∧ (base : Int) ≤ 36)) := by omega
  have hpos : 1 ≤ radix := by
    unfold readRadix at hradix
    split_ifs at hradix <;> obtain ⟨rfl, -⟩ := Prod.mk.inj hradix <;> omega
  have hlimit : (if negative then 2 ^ 63 else 2 ^ 63 - 1) < 2 ^ 64 - 1 := by
    cases negative <;> decide
  have hdigits := readDigits_eq hpos hlimit 0 0 ((signed.drop signs).drop skipped)
  have hstart : (min 0 (2 ^ 64 - 1), decide ((if negative then 2 ^ 63 else 2 ^ 63 - 1) < 0), 0) =
      (0, false, 0) := by simp
  rw [hstart] at hdigits
  rw [parseStrtol, if_neg hgood]
  simp only [hsigned, hsign, Int.toNat_natCast, hradix, hdigits, Nat.zero_add,
    List.length_eq_zero_iff]
  rw [← longValue_eq]
  rfl

theorem head_dropWhile (bytes : List Byte) :
    ∀ b ∈ (bytes.dropWhile isCSpace).head?, ¬ IsSpace b := by
  intro b hb hspace
  have hnot := List.head?_dropWhile_not isCSpace bytes
  rw [Option.mem_def.mp hb] at hnot
  exact Bool.false_ne_true (hnot.symm.trans ((isCSpace_iff b).mpr hspace))

/-- The reader follows the grammar. -/
theorem parseStrtol_converts (bytes : List Byte) {base : Nat}
    (hbase : base = 0 ∨ (2 ≤ base ∧ base ≤ 36)) :
    Converts bytes base (parseStrtol bytes base) := by
  obtain ⟨signed, hsigned⟩ : ∃ signed, bytes.dropWhile isCSpace = signed := ⟨_, rfl⟩
  obtain ⟨negative, signs, hsign⟩ : ∃ negative signs, readSign signed = (negative, signs) :=
    ⟨_, _, rfl⟩
  obtain ⟨radix, skipped, hradix⟩ :
      ∃ radix skipped, readRadix (signed.drop signs) base = (radix, skipped) := ⟨_, _, rfl⟩
  have hword := signWord_readSign signed
  rw [hsign] at hword
  refine ⟨bytes.takeWhile isCSpace, signed, ?_, fun b hb => (isCSpace_iff b).mp
    (List.mem_takeWhile_imp hb), hsigned ▸ head_dropWhile bytes, ?_⟩
  · rw [← hsigned, List.takeWhile_append_dropWhile]
  · rw [parseStrtol_eq bytes base hbase hsigned hsign hradix]
    have hlongest : ∀ other sign n, other <+: signed → Subject base other sign n →
        leadingDigits radix ((signed.drop signs).drop skipped) ≠ [] ∧
        other.length ≤ signs + (skipped +
          (leadingDigits radix ((signed.drop signs).drop skipped)).length) := by
      intro other sign n hother hsubject
      obtain ⟨-, rest, rfl, hrest, hunsigned⟩ := subject_sign hother hsubject
      rw [hsign] at hrest ⊢
      obtain ⟨hne, hle⟩ := unsigned_longest hradix hrest hunsigned
      refine ⟨hne, ?_⟩
      rw [List.length_append, List.length_take]
      omega
    by_cases hne : leadingDigits radix ((signed.drop signs).drop skipped) = []
    · right
      rw [if_pos hne]
      exact ⟨fun other sign n hother hsubject => (hlongest other sign n hother hsubject).1 hne, rfl⟩
    · left
      rw [if_neg hne]
      have hsigns := readSign_le signed
      rw [hsign] at hsigns
      have hcount := length_leadingDigits_le radix ((signed.drop signs).drop skipped)
      have hpos := List.length_pos_iff.mpr hne
      rw [List.length_drop, List.length_drop] at hcount
      have hlength : (signed.take signs ++ (signed.drop signs).take (skipped +
          (leadingDigits radix ((signed.drop signs).drop skipped)).length)).length =
          signs + (skipped + (leadingDigits radix ((signed.drop signs).drop skipped)).length) := by
        rw [List.length_append, List.length_take, List.length_take, List.length_drop]
        omega
      refine ⟨signed.take signs ++ (signed.drop signs).take (skipped +
        (leadingDigits radix ((signed.drop signs).drop skipped)).length), negative, _, ?_,
        ⟨_, _, rfl, hword, unsigned_read hbase hradix hne⟩, ?_, ?_⟩
      · rw [← List.take_add]
        exact List.take_prefix _ _
      · intro other sign n hother hsubject
        rw [hlength]
        exact (hlongest other sign n hother hsubject).2
      · rw [hlength, Nat.add_assoc, Nat.add_assoc]

section Atoi

def textDigits : List Char → List Nat
  | [] => []
  | c :: rest =>
      match toDigit c with
      | some d => d :: textDigits rest
      | none => []

/-- The decimal number at the start of a text, whatever its size. -/
def decimalOf (text : List Char) : Bool × Nat :=
  ((stripSign text).1, value 10 (textDigits (stripSign text).2))

def withSign (number : Bool × Nat) : Int := if number.1 then -(number.2 : Int) else number.2

theorem wrapDigits_eq (n : Nat) (text : List Char) :
    wrapDigits (BitVec.ofNat 64 n) text =
      BitVec.ofNat 64 (valueFrom 10 n (textDigits text)) := by
  induction text generalizing n with
  | nil => rfl
  | cons c text ih =>
      rw [wrapDigits, textDigits]
      cases hc : toDigit c with
      | none => rfl
      | some d =>
          have hstep :
              BitVec.ofNat 64 n * 10 + BitVec.ofNat 64 d = BitVec.ofNat 64 (n * 10 + d) := by
            rw [BitVec.ofNat_add, BitVec.ofNat_mul]
            rfl
          simp only
          rw [valueFrom_cons, ← ih, hstep]

/-- The low half of a number cut to a word is the number cut to half a word. -/
theorem setWidth_ofInt (i : Int) : (BitVec.ofInt 64 i).setWidth 32 = BitVec.ofInt 32 i := by
  apply BitVec.eq_of_toNat_eq
  rw [BitVec.toNat_setWidth, BitVec.toNat_ofInt, BitVec.toNat_ofInt]
  omega

theorem setWidth_signExtend (x : BitVec 32) : (x.signExtend 64).setWidth 32 = x := by
  apply BitVec.eq_of_getLsbD_eq
  intro i hi
  rw [BitVec.getLsbD_setWidth, BitVec.getLsbD_signExtend]
  have hi' : i < 64 := by omega
  simp only [hi, hi', decide_true, Bool.true_and, ↓reduceIte]

/-- `atoi` wraps the number. -/
theorem parseAtoi_eq (bytes : List Byte) :
    (parseAtoi bytes).setWidth 32 =
      BitVec.ofInt 32 (withSign (decimalOf ((fromUtf8Lossy bytes).dropWhile isWhitespace))) := by
  unfold parseAtoi decimalOf withSign
  dsimp only
  generalize stripSign ((fromUtf8Lossy bytes).dropWhile isWhitespace) = stripped
  obtain ⟨negative, digits⟩ := stripped
  have hwrap : wrapDigits 0 digits = BitVec.ofNat 64 (value 10 (textDigits digits)) :=
    wrapDigits_eq 0 digits
  rw [setWidth_signExtend, ← setWidth_ofInt, hwrap]
  cases negative with
  | true =>
      simp only [↓reduceIte]
      rw [BitVec.ofInt_neg, BitVec.ofInt_natCast]
  | false =>
      simp only [Bool.false_eq_true, ↓reduceIte]
      rw [BitVec.ofInt_natCast]

theorem textDigits_fromUtf8Lossy (bytes : List Byte) :
    textDigits (fromUtf8Lossy bytes) = leadingDigits 10 bytes := by
  have hascii : ∀ b : Byte, b < 0x80 → toDigit (Char.ofNat b.toNat) = digitValue b 10 := by
    decide
  have hother : ∀ b : Byte, ¬ b < 0x80 → digitValue b 10 = none := by decide
  induction bytes with
  | nil => rfl
  | cons b bytes ih =>
      by_cases hb : b < 0x80
      · rw [fromUtf8Lossy_ascii hb, textDigits, leadingDigits, hascii b hb, ih]
      · obtain ⟨c, cs, hdecode, hc⟩ := fromUtf8Lossy_not_ascii hb bytes
        have hdigit : toDigit c = none := if_neg (by omega)
        rw [hdecode, textDigits, leadingDigits, hother b hb, hdigit]

/-- On bytes that do not start with white space the two readers see one number. -/
theorem decimalOf_fromUtf8Lossy (bytes : List Byte) :
    decimalOf (fromUtf8Lossy bytes) = ((readSign bytes).1,
      value 10 (leadingDigits 10 (bytes.drop (readSign bytes).2))) := by
  have hascii : ∀ b : Byte, b < 0x80 → b ≠ 0x2D → b ≠ 0x2B →
      Char.ofNat b.toNat ≠ '-' ∧ Char.ofNat b.toNat ≠ '+' := by decide
  unfold decimalOf
  cases bytes with
  | nil => rfl
  | cons b bytes =>
      by_cases hminus : b = 0x2D
      · subst hminus
        rw [fromUtf8Lossy_ascii (by decide)]
        exact congrArg (fun ds => (true, value 10 ds)) (textDigits_fromUtf8Lossy bytes)
      · by_cases hplus : b = 0x2B
        · subst hplus
          rw [fromUtf8Lossy_ascii (by decide)]
          exact congrArg (fun ds => (false, value 10 ds)) (textDigits_fromUtf8Lossy bytes)
        · have hstrip : stripSign (fromUtf8Lossy (b :: bytes)) =
              (false, fromUtf8Lossy (b :: bytes)) := by
            by_cases hb : b < 0x80
            · obtain ⟨hne, hne'⟩ := hascii b hb hminus hplus
              rw [fromUtf8Lossy_ascii hb, stripSign, if_neg hne, if_neg hne']
            · obtain ⟨c, cs, hdecode, hc⟩ := fromUtf8Lossy_not_ascii hb bytes
              have hne : c ≠ '-' := by
                rintro rfl
                exact absurd hc (by decide)
              have hne' : c ≠ '+' := by
                rintro rfl
                exact absurd hc (by decide)
              rw [hdecode, stripSign, if_neg hne, if_neg hne']
          rw [hstrip, readSign_of_ne hplus hminus, textDigits_fromUtf8Lossy]
          rfl

/-- Both readers start after the white space of C. -/
theorem dropWhile_fromUtf8Lossy (bytes : List Byte) :
    (fromUtf8Lossy bytes).dropWhile isWhitespace =
      (fromUtf8Lossy (bytes.dropWhile isCSpace)).dropWhile isWhitespace := by
  have hspace : ∀ b : Byte, isCSpace b = true →
      b < 0x80 ∧ isWhitespace (Char.ofNat b.toNat) = true := by decide
  induction bytes with
  | nil => rfl
  | cons b bytes ih =>
      by_cases hb : isCSpace b = true
      · obtain ⟨hascii, hwhite⟩ := hspace b hb
        rw [fromUtf8Lossy_ascii hascii, List.dropWhile_cons_of_pos hwhite,
          List.dropWhile_cons_of_pos hb, ih]
      · rw [List.dropWhile_cons_of_neg hb]

/-- The number starts behind white space that C does not know. -/
def behindForeignSpace (bytes : List Byte) : Bool :=
  (fromUtf8Lossy (bytes.dropWhile isCSpace)).head?.any isWhitespace

/-- Then `strtol` converts nothing. -/
theorem parseStrtol_foreign {bytes : List Byte} (h : behindForeignSpace bytes = true) :
    (parseStrtol bytes 10).1 = 0 := by
  have hascii : ∀ b : Byte, b < 0x80 → isWhitespace (Char.ofNat b.toNat) = true →
      isCSpace b = true := by decide
  have hother : ∀ b : Byte, ¬ b < 0x80 → b ≠ 0x2B ∧ b ≠ 0x2D ∧ digitValue b 10 = none := by
    decide
  obtain ⟨signed, hsigned⟩ : ∃ signed, bytes.dropWhile isCSpace = signed := ⟨_, rfl⟩
  have hnone : readSign signed = (false, 0) ∧ leadingDigits 10 signed = [] := by
    have hhead := hsigned ▸ head_dropWhile bytes
    rw [behindForeignSpace, hsigned] at h
    cases signed with
    | nil => exact ⟨rfl, rfl⟩
    | cons b rest =>
        have hb : ¬ b < 0x80 := by
          intro hb
          rw [fromUtf8Lossy_ascii hb] at h
          exact hhead b rfl ((isCSpace_iff b).mp (hascii b hb h))
        obtain ⟨hplus, hminus, hdigit⟩ := hother b hb
        exact ⟨readSign_of_ne hplus hminus rest, by rw [leadingDigits, hdigit]⟩
  have hradix : readRadix (signed.drop 0) 10 = (10, 0) := rfl
  have hparse := parseStrtol_eq bytes 10 (.inr (by decide)) hsigned hnone.1 hradix
  rw [List.drop_zero, List.drop_zero, if_pos hnone.2] at hparse
  exact congrArg Prod.fst hparse

/-- Else it holds the number `atoi` reads in range. -/
theorem parseStrtol_decimal {bytes : List Byte} (h : behindForeignSpace bytes = false) :
    (parseStrtol bytes 10).1 = BitVec.ofInt 64 (saturated
      (decimalOf ((fromUtf8Lossy bytes).dropWhile isWhitespace)).1
      (decimalOf ((fromUtf8Lossy bytes).dropWhile isWhitespace)).2) := by
  obtain ⟨signed, hsigned⟩ : ∃ signed, bytes.dropWhile isCSpace = signed := ⟨_, rfl⟩
  have hstop : (fromUtf8Lossy signed).dropWhile isWhitespace = fromUtf8Lossy signed := by
    rw [behindForeignSpace, hsigned] at h
    cases htext : fromUtf8Lossy signed with
    | nil => rfl
    | cons c rest =>
        rw [htext] at h
        exact List.dropWhile_cons_of_neg (by simpa using h)
  obtain ⟨negative, signs, hsign⟩ : ∃ negative signs, readSign signed = (negative, signs) :=
    ⟨_, _, rfl⟩
  have hradix : readRadix (signed.drop signs) 10 = (10, 0) := rfl
  have hparse := parseStrtol_eq bytes 10 (.inr (by decide)) hsigned hsign hradix
  rw [dropWhile_fromUtf8Lossy, hsigned, hstop, decimalOf_fromUtf8Lossy, hsign]
  refine (congrArg Prod.fst hparse).trans ?_
  rw [List.drop_zero]
  split_ifs with hnone
  · rw [hnone]
    cases negative <;> rfl
  · rfl

/-- `atoi` and `strtol` come to one int: the number is one C would find, and in the range of a
long unless its low half happens to be that of the end of the range. -/
def ReadsAlike (bytes : List Byte) : Prop :=
  let number := decimalOf ((fromUtf8Lossy bytes).dropWhile isWhitespace)
  if behindForeignSpace bytes then 2 ^ 32 ∣ number.2
  else if number.1 then number.2 ≤ 2 ^ 63 ∨ 2 ^ 32 ∣ number.2
  else number.2 < 2 ^ 63 ∨ 2 ^ 32 ∣ number.2 + 1

theorem ofInt_eq_iff (a b : Int) :
    BitVec.ofInt 32 a = BitVec.ofInt 32 b ↔ a % 2 ^ 32 = b % 2 ^ 32 := by
  rw [← BitVec.toNat_inj, BitVec.toNat_ofInt, BitVec.toNat_ofInt]
  omega

theorem parseAtoi_iff (bytes : List Byte) :
    (parseAtoi bytes).setWidth 32 = (parseStrtol bytes 10).1.setWidth 32 ↔ ReadsAlike bytes := by
  unfold ReadsAlike
  rw [parseAtoi_eq]
  generalize hnumber : decimalOf ((fromUtf8Lossy bytes).dropWhile isWhitespace) = number
  obtain ⟨negative, n⟩ := number
  cases hforeign : behindForeignSpace bytes with
  | true =>
      have hzero : (0 : Word).setWidth 32 = BitVec.ofInt 32 0 := by decide
      rw [parseStrtol_foreign hforeign, hzero, ofInt_eq_iff]
      cases negative <;> simp only [withSign, Bool.false_eq_true, ↓reduceIte] <;> omega
  | false =>
      rw [parseStrtol_decimal hforeign, setWidth_ofInt, ofInt_eq_iff, hnumber]
      cases negative with
      | true =>
          simp only [withSign, saturated, Bool.false_eq_true, ↓reduceIte]
          rcases Nat.le_total n (2 ^ 63) with hle | hle
          · rw [Nat.min_eq_left hle]
            exact iff_of_true rfl (.inl hle)
          · rw [Nat.min_eq_right hle]
            omega
      | false =>
          simp only [withSign, saturated, Bool.false_eq_true, ↓reduceIte]
          rcases Nat.lt_or_ge n (2 ^ 63) with hlt | hge
          · rw [Nat.min_eq_left (by omega)]
            exact iff_of_true rfl (.inl hlt)
          · rw [Nat.min_eq_right (by omega)]
            omega

end Atoi

section Calls

variable {m : Machine} {text : List Byte}

/-- `atoi` answers with what its reader makes of the string. -/
theorem run_atoi (htext : m.mem.HoldsString (m.regs.gprValue 0 true) text)
    (hlen : text.length < maxPrintfCallBytes) :
    ∃ m', atoi.run m = (m', .ok .continue) ∧ m'.regs.gprValue 0 true = parseAtoi text ∧
      m'.mem = m.mem := by
  refine ⟨((answer (parseAtoi text)).run ⟨(m.regs.readGpr 0 true).1, m.mem, m.heap⟩).1, ?_,
    gprValue_answer _ _, rfl⟩
  rw [atoi, exec_bind_readGpr, run_bind, run_attempt, readCString_of_holds htext hlen]
  rfl

/-- The value in x0, and the end of what was used where `endptr` points, unless it is null. -/
theorem run_strtol (htext : m.mem.HoldsString (m.regs.gprValue 0 true) text)
    (hlen : text.length < maxPrintfCallBytes) {base : Int} {value : Word} {used : Nat}
    (hbase : ((m.regs.gprValue 2 false).setWidth 32).toInt = base)
    (hparse : parseStrtol text base = (value, used))
    (hwrite : m.regs.gprValue 1 true ≠ 0 → (m.mem.writeU64 (m.regs.gprValue 1 true)
      (m.regs.gprValue 0 true + BitVec.ofNat 64 used)).2 = .ok ()) :
    ∃ m', strtol.run m = (m', .ok .continue) ∧ m'.regs.gprValue 0 true = value ∧
      m'.mem = if m.regs.gprValue 1 true = 0 then m.mem
        else (m.mem.writeU64 (m.regs.gprValue 1 true)
          (m.regs.gprValue 0 true + BitVec.ofNat 64 used)).1 := by
  rw [strtol, exec_bind_readGpr, exec_bind_readGpr, exec_bind_readGpr]
  simp only [gprValue_readGpr]
  rw [run_bind, run_attempt, readCString_of_holds htext hlen]
  simp only [hbase, hparse]
  by_cases hnull : m.regs.gprValue 1 true = 0
  · simp only [hnull, ne_eq, not_true_eq_false, ↓reduceIte]
    exact ⟨_, rfl, gprValue_answer value _, rfl⟩
  · simp only [hnull, ne_eq, not_false_eq_true, ↓reduceIte]
    rw [run_bind, Exec.writeU64, run_store]
    simp only [hwrite hnull]
    exact ⟨_, rfl, gprValue_answer value _, rfl⟩

end Calls

/-- `strtol` follows the grammar of C in every base, and `atoi` is the low half of `strtol` in base
10 on the strings both read alike, and on no others.  The stubs answer with what the readers
make of the string; `strtol` leaves the end of what it used where `endptr` points. -/
theorem strtol_atoi_iff (bytes : List Byte) (base : Nat)
    (hbase : base = 0 ∨ (2 ≤ base ∧ base ≤ 36)) :
    ((Converts bytes base (parseStrtol bytes base) ∧
      (parseAtoi bytes).setWidth 32 = (parseStrtol bytes 10).1.setWidth 32) ↔
      ReadsAlike bytes) ∧
    ∀ m : Machine, m.mem.HoldsString (m.regs.gprValue 0 true) bytes →
      bytes.length < maxPrintfCallBytes →
      (∃ m', atoi.run m = (m', .ok .continue) ∧ m'.regs.gprValue 0 true = parseAtoi bytes ∧
        m'.mem = m.mem) ∧
      (((m.regs.gprValue 2 false).setWidth 32).toInt = base →
        (m.regs.gprValue 1 true ≠ 0 → (m.mem.writeU64 (m.regs.gprValue 1 true)
          (m.regs.gprValue 0 true + BitVec.ofNat 64 (parseStrtol bytes base).2)).2 = .ok ()) →
        ∃ m', strtol.run m = (m', .ok .continue) ∧
          m'.regs.gprValue 0 true = (parseStrtol bytes base).1 ∧
          m'.mem = if m.regs.gprValue 1 true = 0 then m.mem
            else (m.mem.writeU64 (m.regs.gprValue 1 true)
              (m.regs.gprValue 0 true + BitVec.ofNat 64 (parseStrtol bytes base).2)).1) := by
  constructor
  · rw [parseAtoi_iff]
    exact ⟨fun h => h.2, fun h => ⟨parseStrtol_converts bytes hbase, h⟩⟩
  · intro m htext hlen
    exact ⟨run_atoi htext hlen, fun hw2 hwrite => run_strtol htext hlen hw2 rfl hwrite⟩

/-- "99999999999999999999". -/
def twentyNines : List Byte := List.replicate 20 0x39

/-- The number 7 behind a no-break space. -/
def foreignSeven : List Byte := [0xC2, 0xA0, 0x37]

/-- Past the range of a long `atoi` wraps where `strtol` stops at the end of the range, and
behind white space C does not know `atoi` finds a number. -/
theorem not_parseAtoi_strtol :
    (parseAtoi twentyNines).setWidth 32 ≠ (parseStrtol twentyNines 10).1.setWidth 32 ∧
    (parseAtoi foreignSeven).setWidth 32 ≠ (parseStrtol foreignSeven 10).1.setWidth 32 := by
  decide

/-- A number in range with its sign and white space is read alike. -/
theorem strtol_atoi_iff_small :
    Converts [0x20, 0x2D, 0x34, 0x32, 0x78] 10 (parseStrtol [0x20, 0x2D, 0x34, 0x32, 0x78] 10) ∧
    (parseAtoi [0x20, 0x2D, 0x34, 0x32, 0x78]).setWidth 32 =
      (parseStrtol [0x20, 0x2D, 0x34, 0x32, 0x78] 10).1.setWidth 32 :=
  (strtol_atoi_iff [0x20, 0x2D, 0x34, 0x32, 0x78] 10 (.inr (by decide))).1.mpr
    (.inl (by decide))

end Hosted

end Playground
