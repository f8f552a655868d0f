/-
The layout C gives a conversion: sign and prefix, digits to the precision, and padding to the
width on the side the flags say.
-/
import Playground.Hosted.Printf
import Playground.Library.Numerals

namespace Playground

namespace Hosted

/-- A directive in C's terms: a width and a precision of any size, and the bits of an
integer argument. -/
structure Directive where
  left : Bool
  zero : Bool
  plus : Bool
  space : Bool
  alt : Bool
  width : Nat
  precision : Option Nat
  bits : Nat
  longDouble : Bool

def Directive.sign (d : Directive) (negative : Bool) : List Byte :=
  if negative then [0x2D] else if d.plus then [0x2B] else if d.space then [0x20] else []

/-- Text in a field: as wide as the width, or as itself where that is more, the padding where
the flags say. -/
structure Padded (d : Directive) (zeroOk : Bool) (lead body text : List Byte) : Prop where
  length : text.length = max d.width (lead.length + body.length)
  layout : ∃ pad, text =
    if d.left then lead ++ body ++ List.replicate pad 0x20
    else if d.zero && zeroOk then lead ++ List.replicate pad 0x30 ++ body
    else List.replicate pad 0x20 ++ lead ++ body

/-- The digits of a number, without leading zeros: none for zero. -/
def numeral (base : Nat) (upper : Bool) (n : Nat) : List Byte :=
  (base.digits n).reverse.map (digitByte upper)

/-- The digits of a number, with leading zeros up to the precision, which is 1 unless given. -/
def precise (base : Nat) (upper : Bool) (precision : Option Nat) (n : Nat) : List Byte :=
  List.replicate (precision.getD 1 - (numeral base upper n).length) 0x30 ++ numeral base upper n

/-- The base of an unsigned conversion. -/
def baseOf (conv : Byte) : Nat := if conv = 0x6F then 8 else if conv = 0x75 then 10 else 16

/-- The prefix of the `#` form: of a hex value that is not zero. -/
def radixPrefix (d : Directive) (conv : Byte) (n : Nat) : List Byte :=
  if d.alt ∧ n ≠ 0 ∧ (conv = 0x78 ∨ conv = 0x58) then [0x30, conv] else []

/-- The digits of an unsigned conversion: under `#` an octal number starts with a zero. -/
def unsignedDigits (d : Directive) (conv : Byte) (n : Nat) : List Byte :=
  if d.alt ∧ conv = 0x6F ∧ (precise 8 false d.precision n).head? ≠ some 0x30 then
    0x30 :: precise 8 false d.precision n
  else precise (baseOf conv) (conv == 0x58) d.precision n

/-- What a conversion prints, and the argument it takes.  A length modifier says nothing to `%c`
and `%s`: `%ls` prints the bytes of a narrow string, where C has wide characters. -/
inductive ConvertsTo (m : Machine) (d : Directive) : Byte → ArgCursor → List Bool → List Byte →
    ArgCursor → Prop
  | percent (c : ArgCursor) : ConvertsTo m d 0x25 c [] [0x25] c
  | signed {conv : Byte} {c : ArgCursor} {text : List Byte} (hconv : conv = 0x64 ∨ conv = 0x69)
      (h : Padded d d.precision.isNone (d.sign (decide (((c.int m).1.setWidth d.bits).toInt < 0)))
        (precise 10 false d.precision ((c.int m).1.setWidth d.bits).toInt.natAbs) text) :
      ConvertsTo m d conv c [true] text (c.int m).2
  | unsigned {conv : Byte} {c : ArgCursor} {text : List Byte}
      (hconv : conv = 0x75 ∨ conv = 0x78 ∨ conv = 0x58 ∨ conv = 0x6F)
      (h : Padded d d.precision.isNone (radixPrefix d conv ((c.int m).1.setWidth d.bits).toNat)
        (unsignedDigits d conv ((c.int m).1.setWidth d.bits).toNat) text) :
      ConvertsTo m d conv c [true] text (c.int m).2
  | null {c : ArgCursor} {text : List Byte} (hnull : (c.int m).1 = 0)
      (h : Padded d false [] [0x28, 0x6E, 0x69, 0x6C, 0x29] text) :
      ConvertsTo m d 0x70 c [true] text (c.int m).2
  | pointer {c : ArgCursor} {text : List Byte} (hnull : (c.int m).1 ≠ 0)
      (h : Padded d d.precision.isNone [0x30, 0x78]
        (precise 16 false d.precision (c.int m).1.toNat) text) :
      ConvertsTo m d 0x70 c [true] text (c.int m).2
  | char {c : ArgCursor} {text : List Byte}
      (h : Padded d false [] [(c.int m).1.setWidth 8] text) :
      ConvertsTo m d 0x63 c [true] text (c.int m).2
  | string {c : ArgCursor} {bytes text : List Byte}
      (hread : (match d.precision with
        | some max => readCPrefix m.mem max (c.int m).1
        | none => readCString m.mem (c.int m).1 "printf %s") = .ok bytes)
      (h : Padded d false [] bytes text) :
      ConvertsTo m d 0x73 c [true] text (c.int m).2
  | double {conv : Byte} {c : ArgCursor} {text : List Byte} (hconv : isDoubleConv conv = true)
      (h : Padded d (isFinite (c.double m).1) (d.sign (signBit (c.double m).1))
        (doubleText (c.double m).1 conv (d.precision.map (min · maxFieldWidth)) d.alt) text) :
      ConvertsTo m d conv c [false] text (c.double m).2
  | other {conv : Byte} (c : ArgCursor)
      (hconv : conv ∉ ([0x25, 0x64, 0x69, 0x75, 0x78, 0x58, 0x6F, 0x70, 0x63, 0x73, 0x66, 0x46,
        0x65, 0x45, 0x67, 0x47, 0x61, 0x41] : List Byte)) : ConvertsTo m d conv c [] [0x25, conv] c

def isFlag (b : Byte) : Bool := b ∈ ([0x2D, 0x30, 0x2B, 0x20, 0x23, 0x27] : List Byte)

def isLength (b : Byte) : Bool := b ∈ ([0x6C, 0x7A, 0x6A, 0x74, 0x68, 0x4C] : List Byte)

/-- A decimal number, of any size. -/
def decimal (digits : List Byte) : Nat :=
  Numerals.value 10 (digits.map fun b => b.toNat - 0x30)

/-- Digits of a count, as long as they go: what follows them is no digit, and no `*` where there
are none. -/
def Counted (word rest : List Byte) : Prop :=
  (∀ b ∈ word, isDigit b = true) ∧ (∀ b ∈ rest.head?, isDigit b = false) ∧
    (word = [] → rest.head? ≠ some 0x2A)

/-- A width: digits, or an argument, whose sign is a `-` flag. -/
inductive WidthWord (m : Machine) : List Byte → List Byte → ArgCursor → Bool → Nat →
    List Bool → ArgCursor → Prop
  | digits {word rest : List Byte} (c : ArgCursor) (h : Counted word rest) :
      WidthWord m word rest c false (decimal word) [] c
  | star (rest : List Byte) (c : ArgCursor) :
      WidthWord m [0x2A] rest c (decide (asI32 (c.int m).1 < 0)) (asI32 (c.int m).1).natAbs
        [true] (c.int m).2

/-- A precision: none, digits, or an argument, no precision when negative. -/
inductive PrecisionWord (m : Machine) : List Byte → List Byte → ArgCursor → Option Nat →
    List Bool → ArgCursor → Prop
  | absent {rest : List Byte} (c : ArgCursor) (h : rest.head? ≠ some 0x2E) :
      PrecisionWord m [] rest c none [] c
  | digits {word rest : List Byte} (c : ArgCursor) (h : Counted word rest) :
      PrecisionWord m (0x2E :: word) rest c (some (decimal word)) [] c
  | star (rest : List Byte) (c : ArgCursor) : PrecisionWord m [0x2E, 0x2A] rest c
      (if 0 ≤ asI32 (c.int m).1 then some (asI32 (c.int m).1).toNat else none) [true] (c.int m).2

/-- The bits of an integer under a length modifier; C gives other words none. -/
inductive LengthWord : List Byte → Nat → Prop
  | int : LengthWord [] 32
  | short : LengthWord [0x68] 16
  | char : LengthWord [0x68, 0x68] 8
  | long {word : List Byte} (hne : word ≠ [])
      (h : ∀ b ∈ word, b ∈ ([0x6C, 0x7A, 0x6A, 0x74] : List Byte)) : LengthWord word 64
  | undefined {word : List Byte} (bits : Nat) (h : 0x4C ∈ word ∨ (0x68 ∈ word ∧ 2 < word.length) ∨
      (0x68 ∈ word ∧ ∃ b ∈ word, b ∈ ([0x6C, 0x7A, 0x6A, 0x74] : List Byte))) :
      LengthWord word bits

/-- A directive behind its `%`: flags, width, precision and length, each as long as it goes, and
what follows it. -/
inductive Directs (m : Machine) : List Byte → ArgCursor → Directive → List Byte → List Bool →
    ArgCursor → Prop
  | intro {flags width precision lengths rest : List Byte} {c c₁ c₂ : ArgCursor} {d : Directive}
      {negative : Bool} {kinds₁ kinds₂ : List Bool}
      (hflags : ∀ b ∈ flags, isFlag b = true)
      (hnoflag : ∀ b ∈ (width ++ (precision ++ (lengths ++ rest))).head?, isFlag b = false)
      (hwidth : WidthWord m width (precision ++ (lengths ++ rest)) c negative d.width kinds₁ c₁)
      (hprecision : PrecisionWord m precision (lengths ++ rest) c₁ d.precision kinds₂ c₂)
      (hlengths : ∀ b ∈ lengths, isLength b = true)
      (hnolength : ∀ b ∈ rest.head?, isLength b = false) (hbits : LengthWord lengths d.bits)
      (hleft : d.left = (decide (0x2D ∈ flags) || negative))
      (hzero : d.zero = decide (0x30 ∈ flags))
      (hplus : d.plus = decide (0x2B ∈ flags)) (hspace : d.space = decide (0x20 ∈ flags))
      (halt : d.alt = decide (0x23 ∈ flags)) (hlong : d.longDouble = decide (0x4C ∈ lengths)) :
      Directs m (flags ++ (width ++ (precision ++ (lengths ++ rest)))) c d rest
        (kinds₁ ++ kinds₂) c₂

/-- The text of a format over its arguments, and the kinds of the arguments it takes, integers
and doubles. -/
inductive Renders (m : Machine) : List Byte → ArgCursor → List Bool → List Byte → Prop
  | done (c : ArgCursor) : Renders m [] c [] []
  | literal {b : Byte} {fmt : List Byte} {c : ArgCursor} {kinds : List Bool} {text : List Byte}
      (hb : b ≠ 0x25) (h : Renders m fmt c kinds text) : Renders m (b :: fmt) c kinds (b :: text)
  | trailing {fmt : List Byte} {c c' : ArgCursor} {d : Directive} {kinds : List Bool}
      (h : Directs m fmt c d [] kinds c') : Renders m (0x25 :: fmt) c kinds [0x25]
  | directive {fmt rest : List Byte} {c c₁ c₂ : ArgCursor} {d : Directive} {conv : Byte}
      {field text : List Byte} {kinds kinds₁ kinds₂ : List Bool}
      (hdirects : Directs m fmt c d (conv :: rest) kinds c₁)
      (hconverts : ConvertsTo m d conv c₁ kinds₁ field c₂) (h : Renders m rest c₂ kinds₂ text) :
      Renders m (0x25 :: fmt) c (kinds ++ (kinds₁ ++ kinds₂)) (field ++ text)

section Letters

variable {set : FormatSpec → Byte → Option FormatSpec} {known : Byte → Bool}

/-- The spec after letters that each set something. -/
def setAll (set : FormatSpec → Byte → Option FormatSpec) (spec : FormatSpec)
    (letters : List Byte) : FormatSpec :=
  letters.foldl (fun spec b => (set spec b).getD spec) spec

theorem readLetters_split (hset : ∀ spec b, (set spec b).isSome = known b) (fmt : List Byte) :
    ∃ letters rest, fmt = letters ++ rest ∧ (∀ b ∈ letters, known b = true) ∧
      (∀ b ∈ rest.head?, known b = false) ∧
      ∀ spec, readLetters set spec fmt = (setAll set spec letters, letters.length) := by
  induction fmt with
  | nil => exact ⟨[], [], rfl, by simp, by simp, fun _ => rfl⟩
  | cons b fmt ih =>
      cases hb : known b with
      | false =>
          refine ⟨[], b :: fmt, rfl, by simp, ?_, fun spec => ?_⟩
          · intro b' hb'
            cases hb'
            exact hb
          · have hnone : set spec b = none := by
              rw [← Option.isNone_iff_eq_none, ← Option.not_isSome, hset, hb]
              rfl
            rw [readLetters, hnone]
            rfl
      | true =>
          obtain ⟨letters, rest, hfmt, hletters, hrest, hread⟩ := ih
          refine ⟨b :: letters, rest, congrArg (b :: ·) hfmt, ?_, hrest, fun spec => ?_⟩
          · intro b' hb'
            rcases List.mem_cons.mp hb' with rfl | hmem
            · exact hb
            · exact hletters b' hmem
          · obtain ⟨next, hnext⟩ := Option.isSome_iff_exists.mp ((hset spec b).trans hb)
            have hall : setAll set spec (b :: letters) = setAll set next letters := by
              unfold setAll
              rw [List.foldl_cons, hnext]
              rfl
            rw [readLetters, hnext, hall]
            simp only [hread, List.length_cons]

end Letters

theorem isSome_setFlag (spec : FormatSpec) (b : Byte) : (setFlag spec b).isSome = isFlag b := by
  unfold setFlag isFlag
  simp only [List.mem_cons, List.not_mem_nil, or_false]
  split_ifs <;> simp_all

theorem isSome_setLength (spec : FormatSpec) (b : Byte) :
    (setLength spec b).isSome = isLength b := by
  unfold setLength isLength
  simp only [List.mem_cons, List.not_mem_nil, or_false]
  split_ifs <;> simp_all
  grind

theorem setAll_flags (spec : FormatSpec) (flags : List Byte) :
    setAll setFlag spec flags =
      { spec with
        leftAlign := spec.leftAlign || decide (0x2D ∈ flags)
        zeroPad := spec.zeroPad || decide (0x30 ∈ flags)
        plus := spec.plus || decide (0x2B ∈ flags)
        space := spec.space || decide (0x20 ∈ flags)
        alt := spec.alt || decide (0x23 ∈ flags) } := by
  induction flags generalizing spec with
  | nil => simp [setAll]
  | cons b flags ih =>
      unfold setAll at ih ⊢
      rw [List.foldl_cons, ih]
      unfold setFlag
      have hcomm : ∀ k : Byte, (k = b) = (b = k) := fun k => propext eq_comm
      simp only [List.mem_cons, hcomm]
      clear hcomm
      split_ifs <;> simp_all

/-- Digits come to their number, held under the ceiling. -/
theorem readCount_split (n : Nat) (fmt : List Byte) :
    ∃ word rest, fmt = word ++ rest ∧ (∀ b ∈ word, isDigit b = true) ∧
      (∀ b ∈ rest.head?, isDigit b = false) ∧
      readCount (min n maxFieldWidth) fmt =
        (min (Numerals.valueFrom 10 n (word.map fun b => b.toNat - 0x30)) maxFieldWidth,
          word.length) := by
  induction fmt generalizing n with
  | nil => exact ⟨[], [], rfl, by simp, by simp, rfl⟩
  | cons b fmt ih =>
      cases hb : isDigit b with
      | false =>
          refine ⟨[], b :: fmt, rfl, by simp, ?_, ?_⟩
          · intro b' hb'
            cases hb'
            exact hb
          · rw [readCount, if_neg (by rw [hb]; decide)]
            rfl
      | true =>
          obtain ⟨word, rest, hfmt, hword, hrest, hread⟩ := ih (n * 10 + (b.toNat - 0x30))
          refine ⟨b :: word, rest, congrArg (b :: ·) hfmt, ?_, hrest, ?_⟩
          · intro b' hb'
            rcases List.mem_cons.mp hb' with rfl | hmem
            · exact hb
            · exact hword b' hmem
          · have hstep : min (min n maxFieldWidth * 10 + (b.toNat - 0x30)) maxFieldWidth =
                min (n * 10 + (b.toNat - 0x30)) maxFieldWidth := by
              have hpos : 0 < maxFieldWidth := by decide
              omega
            rw [readCount, if_pos hb, hstep, hread]
            rfl

def FormatSpec.bits (spec : FormatSpec) : Nat :=
  match spec.short with
  | 0 => if spec.long then 64 else 32
  | 1 => 16
  | _ => 8

theorem narrowSigned_eq (raw : Word) (spec : FormatSpec) :
    narrowSigned raw spec = (raw.setWidth spec.bits).toInt := by
  obtain ⟨left, zero, plus, space, alt, width, precision, long, short, longDouble⟩ := spec
  rcases short with _ | _ | more
  · cases long with
    | true => exact congrArg BitVec.toInt (BitVec.setWidth_eq raw).symm
    | false => rfl
  · rfl
  · rfl

theorem narrowUnsigned_eq (raw : Word) (spec : FormatSpec) :
    narrowUnsigned raw spec = (raw.setWidth spec.bits).toNat := by
  obtain ⟨left, zero, plus, space, alt, width, precision, long, short, longDouble⟩ := spec
  rcases short with _ | _ | more
  · cases long with
    | true => exact congrArg BitVec.toNat (BitVec.setWidth_eq raw).symm
    | false => rfl
  · rfl
  · rfl

/-- What the length letters leave: the rest of the spec as it was. -/
theorem setAll_lengths (spec : FormatSpec) (lengths : List Byte) :
    ∃ long short, setAll setLength spec lengths =
      { spec with
        long := long, short := short
        longDouble := spec.longDouble || decide (0x4C ∈ lengths) } := by
  induction lengths generalizing spec with
  | nil => exact ⟨spec.long, spec.short, by simp [setAll]⟩
  | cons b lengths ih =>
      unfold setAll at ih ⊢
      rw [List.foldl_cons]
      generalize hnext : (setLength spec b).getD spec = next
      obtain ⟨long, short, hall⟩ := ih next
      refine ⟨long, short, hall.trans ?_⟩
      rw [← hnext]
      have hcomm : (0x4C : Byte) ∈ b :: lengths ↔ b = 0x4C ∨ 0x4C ∈ lengths :=
        List.mem_cons.trans (or_congr_left eq_comm)
      simp only [hcomm]
      unfold setLength
      split_ifs <;> simp_all
      grind

theorem setAll_long {spec : FormatSpec} (hlong : spec.long = true) (hshort : spec.short = 0)
    {lengths : List Byte} (h : ∀ b ∈ lengths, b ∈ ([0x6C, 0x7A, 0x6A, 0x74] : List Byte)) :
    setAll setLength spec lengths = spec := by
  induction lengths with
  | nil => rfl
  | cons b lengths ih =>
      have hb := h b (by simp)
      have hkeep : (setLength spec b).getD spec = spec := by
        unfold setLength
        rw [if_pos (by simpa using hb), Option.getD_some, ← hlong, ← hshort]
      unfold setAll at ih ⊢
      rw [List.foldl_cons, hkeep]
      exact ih fun b' hb' => h b' (List.mem_cons_of_mem b hb')

/-- The bits are those the length letters name. -/
theorem lengthWord_setAll {spec : FormatSpec} (hlong : spec.long = false) (hshort : spec.short = 0)
    {lengths : List Byte} (h : ∀ b ∈ lengths, isLength b = true) :
    LengthWord lengths (setAll setLength spec lengths).bits := by
  by_cases hdouble : 0x4C ∈ lengths
  · exact .undefined _ (.inl hdouble)
  have hsplit : ∀ b ∈ lengths, b = 0x68 ∨ b ∈ ([0x6C, 0x7A, 0x6A, 0x74] : List Byte) := by
    intro b hb
    have hknown := h b hb
    have hne : b ≠ 0x4C := fun heq => hdouble (heq ▸ hb)
    unfold isLength at hknown
    simp only [List.mem_cons, List.not_mem_nil, or_false, decide_eq_true_eq] at hknown ⊢
    tauto
  by_cases hh : 0x68 ∈ lengths
  · by_cases hmany : 2 < lengths.length
    · exact .undefined _ (.inr (.inl ⟨hh, hmany⟩))
    by_cases hmixed : ∃ b ∈ lengths, b ∈ ([0x6C, 0x7A, 0x6A, 0x74] : List Byte)
    · exact .undefined _ (.inr (.inr ⟨hh, hmixed⟩))
    have hall : ∀ b ∈ lengths, b = 0x68 := fun b hb =>
      (hsplit b hb).resolve_right fun hl => hmixed ⟨b, hb, hl⟩
    -- one `h` or two
    match lengths, hh, hmany, hall with
    | [b], _, _, hall =>
        rw [hall b (by simp)]
        have hbits : (setAll setLength spec [0x68]).bits = 16 := by
          simp [setAll, setLength, FormatSpec.bits, hshort]
        rw [hbits]
        exact .short
    | [b, b'], _, _, hall =>
        rw [hall b (by simp), hall b' (by simp)]
        have hbits : (setAll setLength spec [0x68, 0x68]).bits = 8 := by
          simp [setAll, setLength, FormatSpec.bits, hshort]
        rw [hbits]
        exact .char
    | _ :: _ :: _ :: _, _, hmany, _ => exact absurd (by simp) hmany
  · cases lengths with
    | nil =>
        have hbits : (setAll setLength spec []).bits = 32 := by
          simp [setAll, FormatSpec.bits, hshort, hlong]
        rw [hbits]
        exact .int
    | cons b lengths =>
        have hletters : ∀ b' ∈ b :: lengths, b' ∈ ([0x6C, 0x7A, 0x6A, 0x74] : List Byte) :=
          fun b' hb' => (hsplit b' hb').resolve_left fun heq => hh (heq ▸ hb')
        have hb := hletters b (by simp)
        have hfirst : (setLength spec b).getD spec = { spec with long := true, short := 0 } := by
          unfold setLength
          rw [if_pos (by simpa using hb), Option.getD_some]
        have hbits : (setAll setLength spec (b :: lengths)).bits = 64 := by
          have hall := @setAll_long { spec with long := true, short := 0 } rfl rfl _
            fun b' hb' => hletters b' (List.mem_cons_of_mem b hb')
          unfold setAll at hall ⊢
          rw [List.foldl_cons, hfirst, hall]
          rfl
        rw [hbits]
        exact .long (by simp) hletters

namespace ArgCursor

/-- The next argument of a kind: an integer, or a double. -/
def next (c : ArgCursor) (m : Machine) (int : Bool) : Word × ArgCursor :=
  if int then c.int m else c.double m

/-- The arguments of these kinds. -/
def drawn (m : Machine) : ArgCursor → List Bool → List Word
  | _, [] => []
  | c, int :: kinds => (c.next m int).1 :: drawn m (c.next m int).2 kinds

/-- The cursor past them. -/
def after (m : Machine) : ArgCursor → List Bool → ArgCursor
  | c, [] => c
  | c, int :: kinds => after m (c.next m int).2 kinds

variable (m : Machine) (c : ArgCursor) (kinds kinds' : List Bool)

theorem drawn_append :
    c.drawn m (kinds ++ kinds') = c.drawn m kinds ++ (c.after m kinds).drawn m kinds' := by
  induction kinds generalizing c with
  | nil => rfl
  | cons int kinds ih => exact congrArg ((c.next m int).1 :: ·) (ih _)

theorem after_append : c.after m (kinds ++ kinds') = (c.after m kinds).after m kinds' := by
  induction kinds generalizing c with
  | nil => rfl
  | cons int kinds ih => exact ih _

theorem length_drawn : (c.drawn m kinds).length = kinds.length := by
  induction kinds generalizing c with
  | nil => rfl
  | cons int kinds ih => exact congrArg (· + 1) (ih _)

variable {m c kinds kinds'}

/-- Arguments that agree agree in both parts. -/
theorem drawn_append_inj {m' : Machine} {c' : ArgCursor}
    (h : c'.drawn m' (kinds ++ kinds') = c.drawn m (kinds ++ kinds')) :
    c'.drawn m' kinds = c.drawn m kinds ∧
      (c'.after m' kinds).drawn m' kinds' = (c.after m kinds).drawn m kinds' := by
  rw [drawn_append, drawn_append] at h
  exact List.append_inj h (by rw [length_drawn, length_drawn])

end ArgCursor

/-- A spec holds what a directive says, its width and precision held under the ceiling. -/
structure Caps (d : Directive) (spec : FormatSpec) : Prop where
  left : spec.leftAlign = d.left
  zero : spec.zeroPad = d.zero
  plus : spec.plus = d.plus
  space : spec.space = d.space
  alt : spec.alt = d.alt
  width : spec.width = min d.width maxFieldWidth
  precision : spec.precision = d.precision.map (min · maxFieldWidth)
  bits : spec.bits = d.bits
  longDouble : spec.longDouble = d.longDouble

theorem readCount_counted {fmt : List Byte} (hstar : fmt.head? ≠ some 0x2A) :
    ∃ word rest, fmt = word ++ rest ∧ Counted word rest ∧
      readCount 0 fmt = (min (decimal word) maxFieldWidth, word.length) := by
  obtain ⟨word, rest, hfmt, hword, hrest, hread⟩ := readCount_split 0 fmt
  refine ⟨word, rest, hfmt, ⟨hword, hrest, ?_⟩, hread⟩
  rintro rfl
  rwa [hfmt] at hstar

def FormatSpec.withWidth (spec : FormatSpec) (size : Bool × Nat) : FormatSpec :=
  { spec with leftAlign := spec.leftAlign || size.1, width := min size.2 maxFieldWidth }

def FormatSpec.withPrecision (spec : FormatSpec) (precision : Option Nat) : FormatSpec :=
  { spec with precision := precision.map (min · maxFieldWidth) }

/-- The width, of the arguments it takes. -/
theorem run_parseWidth (fmt : List Byte) :
    ∃ word rest kinds, fmt = word ++ rest ∧ ∃ width : List Word → Bool × Nat,
      ∀ (spec : FormatSpec) (m₀ m : Machine) (w : VarargWalker), SameView m₀ m → ∃ m' w',
        (parseWidth spec fmt w).run m =
          (m', .ok (spec.withWidth (width (w.drawn m₀ kinds)), word.length, w')) ∧
        SameView m₀ m' ∧ w'.toArgCursor = w.after m₀ kinds ∧
        WidthWord m₀ word rest w.toArgCursor (width (w.drawn m₀ kinds)).1
          (width (w.drawn m₀ kinds)).2 kinds (w.after m₀ kinds) := by
  by_cases hstar : fmt.head? = some 0x2A
  · obtain ⟨rest, rfl⟩ : ∃ rest, fmt = 0x2A :: rest := by
      cases fmt with
      | nil => cases hstar
      | cons b rest => exact ⟨rest, by rw [Option.some.inj hstar]⟩
    refine ⟨[0x2A], rest, [true], rfl,
      fun args => (decide (asI32 (args.headD 0) < 0), (asI32 (args.headD 0)).natAbs), ?_⟩
    intro spec m₀ m w hview
    obtain ⟨m', w', hrun, hview', hw'⟩ := w.run_nextInt hview
    refine ⟨m', w', ?_, hview', hw', .star rest w.toArgCursor⟩
    rw [parseWidth, if_pos hstar, Exec.run_bind_ok hrun]
    rfl
  · obtain ⟨word, rest, hfmt, hword, hread⟩ := readCount_counted hstar
    refine ⟨word, rest, [], hfmt, fun _ => (false, decimal word), ?_⟩
    intro spec m₀ m w hview
    refine ⟨m, w, ?_, hview, rfl, .digits w.toArgCursor hword⟩
    rw [parseWidth, if_neg hstar, hread, FormatSpec.withWidth, Bool.or_false]
    rfl

/-- The precision, of the arguments it takes. -/
theorem run_parsePrecision (fmt : List Byte) :
    ∃ word rest kinds, fmt = word ++ rest ∧ ∃ precision : List Word → Option Nat,
      ∀ (spec : FormatSpec) (m₀ m : Machine) (w : VarargWalker), spec.precision = none →
        SameView m₀ m → ∃ m' w',
        (parsePrecision spec fmt w).run m =
          (m', .ok (spec.withPrecision (precision (w.drawn m₀ kinds)), word.length, w')) ∧
        SameView m₀ m' ∧ w'.toArgCursor = w.after m₀ kinds ∧
        PrecisionWord m₀ word rest w.toArgCursor (precision (w.drawn m₀ kinds)) kinds
          (w.after m₀ kinds) := by
  by_cases hdot : fmt.head? = some 0x2E
  · obtain ⟨fmt, rfl⟩ : ∃ rest, fmt = 0x2E :: rest := by
      cases fmt with
      | nil => cases hdot
      | cons b rest => exact ⟨rest, by rw [Option.some.inj hdot]⟩
    by_cases hstar : fmt.head? = some 0x2A
    · obtain ⟨rest, rfl⟩ : ∃ rest, fmt = 0x2A :: rest := by
        cases fmt with
        | nil => cases hstar
        | cons b rest => exact ⟨rest, by rw [Option.some.inj hstar]⟩
      refine ⟨[0x2E, 0x2A], rest, [true], rfl, fun args =>
        if 0 ≤ asI32 (args.headD 0) then some (asI32 (args.headD 0)).toNat else none, ?_⟩
      intro spec m₀ m w _ hview
      obtain ⟨m', w', hrun, hview', hw'⟩ := w.run_nextInt hview
      refine ⟨m', w', ?_, hview', hw', .star rest w.toArgCursor⟩
      rw [parsePrecision, if_neg (not_not_intro hdot), if_pos (by rfl), Exec.run_bind_ok hrun]
      show (_, Except.ok _) = _
      by_cases hsign : 0 ≤ asI32 (w.int m₀).1
      · simp only [FormatSpec.withPrecision, ArgCursor.drawn, ArgCursor.next, ↓reduceIte,
          List.headD_cons, hsign, Option.map_some, List.length_cons, List.length_nil]
      · simp only [FormatSpec.withPrecision, ArgCursor.drawn, ArgCursor.next, ↓reduceIte,
          List.headD_cons, hsign, Option.map_none, List.length_cons, List.length_nil]
    · obtain ⟨word, rest, hfmt, hword, hread⟩ := readCount_counted hstar
      refine ⟨0x2E :: word, rest, [], congrArg (0x2E :: ·) hfmt, fun _ => some (decimal word), ?_⟩
      intro spec m₀ m w _ hview
      refine ⟨m, w, ?_, hview, rfl, .digits w.toArgCursor hword⟩
      have hnext : ((0x2E :: fmt : List Byte)[1]?) ≠ some 0x2A := by
        rw [List.getElem?_cons_succ, ← List.head?_eq_getElem?]
        exact hstar
      rw [parsePrecision, if_neg (not_not_intro hdot), if_neg hnext, List.drop_one, List.tail_cons,
        hread]
      rfl
  · refine ⟨[], fmt, [], rfl, fun _ => none, ?_⟩
    intro spec m₀ m w hnone hview
    refine ⟨m, w, ?_, hview, rfl, .absent w.toArgCursor hdot⟩
    rw [parsePrecision, if_pos hdot, FormatSpec.withPrecision, Option.map_none, ← hnone]
    rfl

theorem drop_append_length_add (first rest : List Byte) (n : Nat) :
    (first ++ rest).drop (first.length + n) = rest.drop n := by
  rw [← List.drop_drop, List.drop_left]

/-- One directive, of the arguments it takes. -/
theorem run_parseSpec (fmt : List Byte) :
    ∃ word rest kinds, fmt = word ++ rest ∧ ∃ spec : List Word → FormatSpec,
      ∀ (m₀ m : Machine) (w : VarargWalker), SameView m₀ m → ∃ m' w' d,
        (parseSpec fmt w).run m = (m', .ok (spec (w.drawn m₀ kinds), word.length, w')) ∧
        SameView m₀ m' ∧ w'.toArgCursor = w.after m₀ kinds ∧
        Directs m₀ fmt w.toArgCursor d rest kinds (w.after m₀ kinds) ∧
        Caps d (spec (w.drawn m₀ kinds)) := by
  obtain ⟨flags, fmt₁, rfl, hflags, hnoflag, hread₁⟩ := readLetters_split isSome_setFlag fmt
  obtain ⟨width, fmt₂, kinds₁, rfl, widthOf, hwidth⟩ := run_parseWidth fmt₁
  obtain ⟨precision, fmt₃, kinds₂, rfl, precisionOf, hprecision⟩ := run_parsePrecision fmt₂
  obtain ⟨lengths, rest, rfl, hlengths, hnolength, hread₃⟩ :=
    readLetters_split isSome_setLength fmt₃
  refine ⟨flags ++ (width ++ (precision ++ lengths)), rest, kinds₁ ++ kinds₂,
    by simp only [List.append_assoc], fun args => setAll setLength
      (((setAll setFlag default flags).withWidth (widthOf (args.take kinds₁.length))).withPrecision
        (precisionOf (args.drop kinds₁.length))) lengths, ?_⟩
  intro m₀ m w hview
  have hspec₁ := setAll_flags default flags
  replace hread₁ := hread₁ default
  generalize setAll setFlag default flags = spec₁ at hread₁ hspec₁ ⊢
  obtain ⟨m₁, w₁, hrun₁, hview₁, hw₁, hword₁⟩ := hwidth spec₁ m₀ m w hview
  obtain ⟨m₂, w₂, hrun₂, hview₂, hw₂, hword₂⟩ := hprecision
    (spec₁.withWidth (widthOf (w.drawn m₀ kinds₁))) m₀ m₁ w₁ (by rw [hspec₁]; rfl) hview₁
  have hargs₁ : (w.drawn m₀ (kinds₁ ++ kinds₂)).take kinds₁.length = w.drawn m₀ kinds₁ := by
    rw [ArgCursor.drawn_append, List.take_left' (ArgCursor.length_drawn m₀ _ _)]
  have hargs₂ : (w.drawn m₀ (kinds₁ ++ kinds₂)).drop kinds₁.length = w₁.drawn m₀ kinds₂ := by
    rw [ArgCursor.drawn_append, List.drop_left' (ArgCursor.length_drawn m₀ _ _), hw₁]
  simp only [hargs₁, hargs₂]
  generalize widthOf (w.drawn m₀ kinds₁) = size at hrun₁ hword₁ hrun₂ ⊢
  generalize precisionOf (w₁.drawn m₀ kinds₂) = places at hrun₂ hword₂ ⊢
  rw [hw₁, ← ArgCursor.after_append] at hw₂ hword₂
  have hbits := @lengthWord_setAll ((spec₁.withWidth size).withPrecision places)
    (by rw [hspec₁]; rfl) (by rw [hspec₁]; rfl) _ hlengths
  obtain ⟨long, short, hall⟩ :=
    setAll_lengths ((spec₁.withWidth size).withPrecision places) lengths
  let d : Directive := {
    left := decide (0x2D ∈ flags) || size.1, zero := decide (0x30 ∈ flags)
    plus := decide (0x2B ∈ flags), space := decide (0x20 ∈ flags), alt := decide (0x23 ∈ flags)
    width := size.2, precision := places
    bits := (setAll setLength ((spec₁.withWidth size).withPrecision places) lengths).bits
    longDouble := decide (0x4C ∈ lengths) }
  refine ⟨m₂, w₂, d, ?_, hview₂, hw₂, .intro hflags hnoflag hword₁ hword₂ hlengths hnolength hbits
    rfl rfl rfl rfl rfl rfl, ?_⟩
  · have hdrop₁ : (flags ++ (width ++ (precision ++ (lengths ++ rest)))).drop flags.length =
        width ++ (precision ++ (lengths ++ rest)) := List.drop_left
    have hdrop₂ : (flags ++ (width ++ (precision ++ (lengths ++ rest)))).drop
        (flags.length + width.length) = precision ++ (lengths ++ rest) := by
      rw [drop_append_length_add, List.drop_left]
    have hdrop₃ : (flags ++ (width ++ (precision ++ (lengths ++ rest)))).drop
        (flags.length + width.length + precision.length) = lengths ++ rest := by
      rw [Nat.add_assoc, drop_append_length_add, drop_append_length_add, List.drop_left]
    have hlength : (flags ++ (width ++ (precision ++ lengths))).length =
        flags.length + width.length + precision.length + lengths.length := by
      simp only [List.length_append]
      omega
    unfold parseSpec
    simp only [hread₁, hdrop₁]
    rw [Exec.run_bind_ok hrun₁]
    simp only [hdrop₂]
    rw [Exec.run_bind_ok hrun₂]
    simp only [hdrop₃, hread₃, hlength]
    rfl
  · constructor
    case bits => rfl
    all_goals
      rw [hall, hspec₁]
      rfl

section Fields

variable {d : Directive} {spec : FormatSpec}

theorem length_emitField (lead body : List Byte) (spec : FormatSpec) (zeroOk : Bool) :
    (emitField lead body spec zeroOk).length = max spec.width (lead.length + body.length) := by
  unfold emitField
  split_ifs <;> simp only [List.length_append, List.length_replicate] <;> omega

theorem padded_emitField (hcaps : Caps d spec) {lead body : List Byte} {zeroOk : Bool}
    (hlen : (emitField lead body spec zeroOk).length < maxFieldWidth) :
    Padded d zeroOk lead body (emitField lead body spec zeroOk) := by
  have hlength := length_emitField lead body spec zeroOk
  have hwidth := hcaps.width
  constructor
  · omega
  · refine ⟨spec.width - (lead.length + body.length), ?_⟩
    rw [← hcaps.left, ← hcaps.zero]
    rfl

theorem signOf_eq (hcaps : Caps d spec) (negative : Bool) :
    signOf negative spec = d.sign negative := by
  unfold signOf Directive.sign
  rw [hcaps.plus, hcaps.space]

theorem numeral_zero (base : Nat) (upper : Bool) : numeral base upper 0 = [] := by
  unfold numeral
  rw [Nat.digits_zero]
  rfl

theorem radixText_eq {base n : Nat} {upper : Bool} (hn : n ≠ 0) :
    radixText base upper n = numeral base upper n := by
  unfold radixText
  rw [if_neg hn]
  rfl

theorem numeral_ne_nil {base n : Nat} (upper : Bool) (hn : n ≠ 0) : numeral base upper n ≠ [] := by
  have hdigits : base.digits n ≠ [] := Nat.digits_ne_nil_iff_ne_zero.mpr hn
  simpa [numeral] using hdigits

/-- A precision under the ceiling gives the digits C gives. -/
theorem intDigits_eq_precise {base value : Nat} {upper : Bool} {precision : Option Nat}
    (hlen : (intDigits value base upper (precision.map (min · maxFieldWidth))).length <
      maxFieldWidth) :
    intDigits value base upper (precision.map (min · maxFieldWidth)) =
      precise base upper precision value := by
  unfold intDigits precise at *
  rcases Nat.eq_zero_or_pos value with rfl | hpos
  · rw [numeral_zero] at *
    cases precision with
    | none => rfl
    | some wanted =>
        simp only [Option.map_some, Option.some.injEq, true_and, Option.getD_some, List.length_nil,
          Nat.sub_zero, List.append_nil] at *
        cases wanted with
        | zero => rfl
        | succ wanted =>
            have hne : min (wanted + 1) maxFieldWidth ≠ 0 := by
              have hcap : maxFieldWidth ≠ 0 := by decide
              omega
            have hzero : radixText base upper 0 = [0x30] := rfl
            rw [if_neg hne, hzero] at *
            simp only [List.length_append, List.length_replicate, List.length_singleton] at *
            have hmin : min (wanted + 1) maxFieldWidth = wanted + 1 := by omega
            rw [hmin, Nat.add_sub_cancel, List.replicate_succ']
  · have hne : value ≠ 0 := hpos.ne'
    have hdigits := List.length_pos_iff.mpr (@numeral_ne_nil base _ upper hne)
    rw [if_neg (fun h => hne h.1), radixText_eq hne] at *
    cases precision with
    | none =>
        have hnone : 1 - (numeral base upper value).length = 0 := by omega
        rw [Option.getD_none, hnone]
        rfl
    | some wanted =>
        simp only [Option.map_some, Option.getD_some, List.length_append, List.length_replicate]
          at hlen ⊢
        have hmin : min wanted maxFieldWidth - (numeral base upper value).length =
            wanted - (numeral base upper value).length := by omega
        rw [hmin]

theorem isNone_precision (hcaps : Caps d spec) : spec.precision.isNone = d.precision.isNone := by
  rw [hcaps.precision]
  cases d.precision <;> rfl

theorem padded_signedField (hcaps : Caps d spec) {value : Int}
    (hlen : (signedField spec value).length < maxFieldWidth) :
    Padded d d.precision.isNone (d.sign (decide (value < 0)))
      (precise 10 false d.precision value.natAbs) (signedField spec value) := by
  have hpadded := padded_emitField hcaps hlen
  have hfield := length_emitField (signOf (decide (value < 0)) spec)
    (intDigits value.natAbs 10 false spec.precision) spec spec.precision.isNone
  have hdigits : intDigits value.natAbs 10 false spec.precision =
      precise 10 false d.precision value.natAbs := by
    unfold signedField at hlen
    rw [hcaps.precision] at hlen hfield ⊢
    apply intDigits_eq_precise
    omega
  rw [hdigits, signOf_eq hcaps, isNone_precision hcaps] at hpadded
  unfold signedField
  rw [hdigits, signOf_eq hcaps, isNone_precision hcaps]
  exact hpadded

/-- The digits of an octal value under `#`. -/
def markOctal (spec : FormatSpec) (conv : Byte) (digits : List Byte) : List Byte :=
  if conv = 0x6F ∧ spec.alt ∧ digits.head? ≠ some 0x30 then 0x30 :: digits else digits

theorem length_le_markOctal (spec : FormatSpec) (conv : Byte) (digits : List Byte) :
    digits.length ≤ (markOctal spec conv digits).length := by
  unfold markOctal
  split_ifs
  · exact Nat.le_succ _
  · exact le_rfl

theorem unsignedDigits_eq (hcaps : Caps d spec) {conv : Byte} {value : Nat}
    (hlen : (intDigits value (baseOf conv) (conv == 0x58) spec.precision).length < maxFieldWidth) :
    markOctal spec conv (intDigits value (baseOf conv) (conv == 0x58) spec.precision) =
      unsignedDigits d conv value := by
  rw [hcaps.precision] at hlen ⊢
  rw [intDigits_eq_precise hlen]
  unfold markOctal unsignedDigits
  rw [hcaps.alt]
  by_cases hconv : conv = 0x6F
  · subst hconv
    have hbase : baseOf 0x6F = 8 := by decide
    have hcase : ((0x6F : Byte) == 0x58) = false := by decide
    rw [hbase, hcase]
    simp only [true_and]
  · rw [if_neg (fun h => hconv h.1), if_neg (fun h => hconv h.2.1)]

theorem radixPrefix_eq (hcaps : Caps d spec) (conv : Byte) (value : Nat) :
    (if conv = 0x78 ∧ spec.alt ∧ value ≠ 0 then [0x30, 0x78]
    else if conv = 0x58 ∧ spec.alt ∧ value ≠ 0 then [0x30, 0x58]
    else []) = radixPrefix d conv value := by
  unfold radixPrefix
  rw [hcaps.alt]
  split_ifs with h h' h' h' h' <;> simp_all

theorem padded_unsignedField (hcaps : Caps d spec) {conv : Byte} {value : Nat}
    (hlen : (unsignedField spec conv value).length < maxFieldWidth) :
    Padded d d.precision.isNone (radixPrefix d conv value) (unsignedDigits d conv value)
      (unsignedField spec conv value) := by
  have hfield : unsignedField spec conv value = emitField (radixPrefix d conv value)
      (markOctal spec conv (intDigits value (baseOf conv) (conv == 0x58) spec.precision)) spec
        d.precision.isNone := by
    rw [← radixPrefix_eq hcaps, ← isNone_precision hcaps]
    rfl
  rw [hfield] at hlen ⊢
  have hpadded := padded_emitField hcaps hlen
  have hmark := length_le_markOctal spec conv
    (intDigits value (baseOf conv) (conv == 0x58) spec.precision)
  rw [length_emitField] at hlen
  rwa [unsignedDigits_eq hcaps (by omega)] at hpadded ⊢

/-- The digits of a pointer that is not null. -/
theorem padded_pointerField (hcaps : Caps d spec) {value : Word} (hnull : value ≠ 0)
    (hlen : (pointerField spec value).length < maxFieldWidth) :
    Padded d d.precision.isNone [0x30, 0x78] (precise 16 false d.precision value.toNat)
      (pointerField spec value) := by
  have hfield : pointerField spec value = emitField [0x30, 0x78]
      (precise 16 false d.precision value.toNat) spec d.precision.isNone := by
    have hbody := length_emitField [0x30, 0x78] (intDigits value.toNat 16 false spec.precision)
      spec spec.precision.isNone
    unfold pointerField at hlen ⊢
    rw [if_neg hnull] at hlen ⊢
    rw [hcaps.precision] at hlen hbody ⊢
    rw [intDigits_eq_precise (by omega), ← hcaps.precision, isNone_precision hcaps]
  rw [hfield] at hlen ⊢
  exact padded_emitField hcaps hlen

end Fields

/-- Only the record of the call changes. -/
def ScratchOnly (side side' : HostSide) : Prop :=
  ∃ call, side' = { side with callScratch := call }

theorem ScratchOnly.refl (side : HostSide) : ScratchOnly side side := ⟨side.callScratch, rfl⟩

theorem ScratchOnly.trans {side side' side'' : HostSide} (h : ScratchOnly side side')
    (h' : ScratchOnly side' side'') : ScratchOnly side side'' := by
  obtain ⟨call, rfl⟩ := h
  obtain ⟨call', rfl⟩ := h'
  exact ⟨call', rfl⟩

/-- Code that formats one conversion: what it prints is a function of the memory and the
arguments of its kinds, and is what C prints. -/
def Formats (spec : FormatSpec) (conv : Byte) (kinds : List Bool)
    (field : Memory → List Word → List Byte × Except EmuError Unit)
    (x : VarargWalker → Stub (VarargWalker × List Byte × Except EmuError Unit)) : Prop :=
  ∀ (side : HostSide) (closed : Bool) (m₀ m : Machine) (w : VarargWalker), SameView m₀ m →
    ∃ m' side' w',
      (x w).run side closed m = (m', side', .ok (w', field m₀.mem (w.drawn m₀ kinds))) ∧
      SameView m₀ m' ∧ ScratchOnly side side' ∧ w'.toArgCursor = w.after m₀ kinds ∧
      ∀ d text, Caps d spec → field m₀.mem (w.drawn m₀ kinds) = (text, .ok ()) →
        text.length < maxFieldWidth →
        ConvertsTo m₀ d conv w.toArgCursor kinds text (w.after m₀ kinds)

section Conversions

variable {spec : FormatSpec} {conv : Byte}

/-- No argument is taken. -/
theorem formats_text {text : List Byte} {done : Except EmuError Unit}
    (h : done = .ok () → ∀ m d c, ConvertsTo m d conv c [] text c) :
    Formats spec conv [] (fun _ _ => (text, done)) fun w => return (w, text, done) := by
  intro side closed m₀ m w hview
  refine ⟨m, side, w, rfl, hview, .refl side, rfl, ?_⟩
  intro d text' _ hfield _
  obtain ⟨rfl, hdone⟩ := Prod.mk.inj hfield
  exact h hdone m₀ d w.toArgCursor

/-- One integer is taken. -/
theorem formats_int (field : Word → List Byte)
    (h : ∀ m c d, Caps d spec → (field (ArgCursor.int c m).1).length < maxFieldWidth →
      ConvertsTo m d conv c [true] (field (c.int m).1) (c.int m).2) :
    Formats spec conv [true] (fun _ args => (field (args.headD 0), .ok ())) fun w => do
      let (raw, w) ← w.nextInt
      return (w, field raw, .ok ()) := by
  intro side closed m₀ m w hview
  obtain ⟨m', w', hrun, hview', hw'⟩ := w.run_nextInt hview
  refine ⟨m', side, w', ?_, hview', .refl side, hw', ?_⟩
  · rw [Stub.run_bind_ok (by rw [Stub.run_liftM, hrun])]
    rfl
  · intro d text hcaps hfield hlen
    obtain ⟨rfl, -⟩ := Prod.mk.inj hfield
    exact h m₀ w.toArgCursor d hcaps hlen

theorem stringArgument_ok {d : Directive} (hcaps : Caps d spec) {mem : Memory} {ptr : Word}
    {bytes : List Byte} (h : stringArgument mem spec ptr = .ok bytes)
    (hlen : bytes.length < maxFieldWidth) :
    (match d.precision with
      | some max => readCPrefix mem max ptr
      | none => readCString mem ptr "printf %s") = .ok bytes := by
  unfold stringArgument at h
  rw [hcaps.precision] at h
  cases hprecision : d.precision with
  | none =>
      rw [hprecision] at h
      simp only [Option.map_none] at h
      split at h
      · cases h
        assumption
      · cases h
      · cases h
  | some max =>
      rw [hprecision] at h
      simp only [Option.map_some] at h
      split at h
      · rename_i hread
        cases h
        rcases Nat.le_total max maxFieldWidth with hle | hge
        · rwa [Nat.min_eq_left hle] at hread
        · rw [Nat.min_eq_right hge] at hread
          exact readCPrefix_mono hread hlen hge
      · cases h
      · cases h

theorem formats_string :
    Formats spec 0x73 [true] (fun mem args => match stringArgument mem spec (args.headD 0) with
      | .ok bytes => (emitField [] bytes spec false, .ok ())
      | .error e => ([], .error e)) fun w => do
      let (ptr, w) ← w.nextInt
      let read ← Exec.look fun m => stringArgument m.mem spec ptr
      match read with
      | .ok bytes => do
          modifyCall fun call => call.readString bytes
          return (w, emitField [] bytes spec false, .ok ())
      | .error e => return (w, [], .error e) := by
  intro side closed m₀ m w hview
  obtain ⟨m', w', hrun, hview', hw'⟩ := w.run_nextInt hview
  have hargs : (w.drawn m₀ [true]).headD 0 = (w.int m₀).1 := rfl
  rw [Stub.run_bind_ok (by rw [Stub.run_liftM, hrun])]
  simp only [hargs]
  have hlook : (liftM (Exec.look fun m => stringArgument m.mem spec (w.int m₀).1) :
      Stub (Except EmuError (List Byte))).run side closed m' =
        (m', side, .ok (stringArgument m₀.mem spec (w.int m₀).1)) := by
    rw [Stub.run_liftM, ← hview'.mem]
    rfl
  rw [Stub.run_bind_ok hlook]
  cases hread : stringArgument m₀.mem spec (w.int m₀).1 with
  | error e =>
      refine ⟨m', side, w', rfl, hview', .refl side, hw', ?_⟩
      intro d text _ hfield _
      cases (Prod.mk.inj hfield).2
  | ok bytes =>
      refine ⟨m', _, w', rfl, hview', ⟨_, rfl⟩, hw', ?_⟩
      intro d text hcaps hfield hlen
      obtain ⟨rfl, -⟩ := Prod.mk.inj hfield
      have hbytes : bytes.length < maxFieldWidth := by
        rw [length_emitField] at hlen
        exact (Nat.le_add_left _ _).trans_lt ((Nat.le_max_right _ _).trans_lt hlen)
      exact .string (stringArgument_ok hcaps hread hbytes) (padded_emitField hcaps hlen)

theorem formats_double (hconv : isDoubleConv conv = true) :
    Formats spec conv [false] (fun _ args => (emitField (signOf (signBit (args.headD 0)) spec)
      (doubleText (args.headD 0) conv spec.precision spec.alt) spec (isFinite (args.headD 0)),
        .ok ())) fun w => do
      let (bits, w) ← w.nextDouble
      let body := doubleText bits conv spec.precision spec.alt
      return (w, emitField (signOf (signBit bits) spec) body spec (isFinite bits), .ok ()) := by
  intro side closed m₀ m w hview
  obtain ⟨m', w', hrun, hview', hw'⟩ := w.run_nextDouble hview
  refine ⟨m', side, w', ?_, hview', .refl side, hw', ?_⟩
  · rw [Stub.run_bind_ok (by rw [Stub.run_liftM, hrun])]
    rfl
  · intro d text hcaps hfield hlen
    obtain ⟨rfl, -⟩ := Prod.mk.inj hfield
    have hpadded := padded_emitField hcaps hlen
    refine .double hconv ?_
    rw [← hcaps.precision, ← hcaps.alt, ← signOf_eq hcaps]
    exact hpadded

theorem formats_conversion (spec : FormatSpec) (conv : Byte) :
    ∃ kinds field, Formats spec conv kinds field (formatConversion spec conv) := by
  show ∃ kinds field, Formats spec conv kinds field fun w => formatConversion spec conv w
  unfold formatConversion
  by_cases hpercent : conv = 0x25
  · simp only [hpercent, ↓reduceIte]
    exact ⟨_, _, formats_text fun _ _ _ c => .percent c⟩
  by_cases hsigned : conv = 0x64 ∨ conv = 0x69
  · simp only [hpercent, hsigned, ↓reduceIte]
    refine ⟨_, _, formats_int (fun raw => signedField spec (narrowSigned raw spec))
      fun m c d hcaps hlen => .signed hsigned ?_⟩
    have hpadded := padded_signedField hcaps hlen
    rw [narrowSigned_eq, hcaps.bits] at hpadded ⊢
    exact hpadded
  by_cases hunsigned : conv = 0x75 ∨ conv = 0x78 ∨ conv = 0x58 ∨ conv = 0x6F
  · simp only [hpercent, hsigned, hunsigned, ↓reduceIte]
    refine ⟨_, _, formats_int (fun raw => unsignedField spec conv (narrowUnsigned raw spec))
      fun m c d hcaps hlen => .unsigned hunsigned ?_⟩
    have hpadded := padded_unsignedField hcaps hlen
    rw [narrowUnsigned_eq, hcaps.bits] at hpadded ⊢
    exact hpadded
  by_cases hpointer : conv = 0x70
  · simp only [hpointer, ↓reduceIte]
    refine ⟨_, _, formats_int (pointerField spec) fun m c d hcaps hlen => ?_⟩
    by_cases hnull : (c.int m).1 = 0
    · refine .null hnull ?_
      rw [pointerField, if_pos hnull] at hlen ⊢
      exact padded_emitField hcaps hlen
    · exact .pointer hnull (padded_pointerField hcaps hnull hlen)
  by_cases hchar : conv = 0x63
  · simp only [hchar, ↓reduceIte]
    exact ⟨_, _, formats_int (fun value => emitField [] [value.setWidth 8] spec false)
      fun m c d hcaps hlen => .char (padded_emitField hcaps hlen)⟩
  by_cases hstring : conv = 0x73
  · simp only [hstring, ↓reduceIte]
    exact ⟨_, _, formats_string⟩
  by_cases hdouble : isDoubleConv conv = true
  · simp only [hpercent, hsigned, hunsigned, hpointer, hchar, hstring, hdouble, ↓reduceIte]
    by_cases hlong : spec.longDouble = true
    · simp only [hlong, ↓reduceIte]
      exact ⟨_, _, formats_text fun h => nomatch h⟩
    · simp only [hlong, Bool.false_eq_true, ↓reduceIte]
      exact ⟨_, _, formats_double hdouble⟩
  by_cases hhex : conv = 0x61 ∨ conv = 0x41
  · simp only [hpercent, hsigned, hunsigned, hpointer, hchar, hstring, hdouble, hhex,
      Bool.false_eq_true, ↓reduceIte]
    exact ⟨_, _, formats_text fun h => nomatch h⟩
  · simp only [hpercent, hsigned, hunsigned, hpointer, hchar, hstring, hdouble, hhex,
      Bool.false_eq_true, ↓reduceIte]
    refine ⟨_, _, formats_text fun _ _ _ c => .other c ?_⟩
    simp only [isDoubleConv, List.mem_cons, List.not_mem_nil, or_false, decide_eq_true_eq]
      at hdouble ⊢
    tauto

end Conversions

section Run

variable {m₀ m m₁ : Machine} {side : HostSide} {closed : Bool}

theorem run_noteConversion (w : VarargWalker) (out : List Byte) (done : Except EmuError Unit)
    (side : HostSide) (closed : Bool) (m : Machine) :
    ∃ side', ScratchOnly side side' ∧
      (noteConversion w out done).run side closed m = (m, side', .ok ()) :=
  ⟨_, ⟨_, rfl⟩, rfl⟩

theorem run_formatFrom_directive {spec : FormatSpec} {conv : Byte} {kinds : List Bool}
    {field : Memory → List Word → List Byte × Except EmuError Unit}
    (hformats : Formats spec conv kinds field (formatConversion spec conv))
    {w w₁ : VarargWalker} {rest : List Byte} {used : Nat}
    (hparse : (parseSpec rest w).run m = (m₁, .ok (spec, used, w₁))) (hview : SameView m₀ m₁)
    (hconv : rest[used]? = some conv) (pos : Nat) (out : List Byte) :
    ∃ m' side' w', SameView m₀ m' ∧ ScratchOnly side side' ∧
      w'.toArgCursor = w₁.after m₀ kinds ∧
      (formatFrom pos 0 w out (0x25 :: rest)).run side closed m =
        match field m₀.mem (w₁.drawn m₀ kinds) with
        | (_, .error e) => (m', side', .error e)
        | (text, .ok ()) =>
            if maxPrintfCallBytes < (out ++ text).length then (m', side', .error overlongError)
            else (formatFrom (pos + 1) (used + 1) w' (out ++ text) rest).run side' closed m' := by
  obtain ⟨m', side', w', hrun, hview', hscratch, hw', -⟩ := hformats
    { side with callScratch := side.callScratch.push { (default : Conversion) with
        fmtStart := pos, fmtEnd := pos + used + 2, textStart := out.length } }
    closed m₀ m₁ { w₁ with last := (argNone, 0) } hview
  have hdrawn : ArgCursor.drawn m₀ ({ w₁ with last := (argNone, 0) } : VarargWalker).toArgCursor
      kinds = w₁.drawn m₀ kinds := rfl
  rw [hdrawn] at hrun
  have hparse' : (liftM (parseSpec rest w) : Stub _).run side closed m =
      (m₁, side, .ok (spec, used, w₁)) := by
    rw [Stub.run_liftM, hparse]
  rw [formatFrom, if_neg (not_not_intro rfl), Stub.run_bind_ok hparse']
  simp only [hconv]
  rw [Stub.run_bind_ok rfl, Stub.run_bind_ok hrun]
  obtain ⟨side'', hscratch', hnote⟩ := run_noteConversion w'
    (out ++ (field m₀.mem (w₁.drawn m₀ kinds)).1) (field m₀.mem (w₁.drawn m₀ kinds)).2
    side' closed m'
  simp only
  rw [Stub.run_bind_ok hnote]
  refine ⟨m', side'', w', hview', (ScratchOnly.trans ⟨_, rfl⟩ hscratch).trans hscratch', hw', ?_⟩
  rcases field m₀.mem (w₁.drawn m₀ kinds) with ⟨text, e | done⟩
  · rfl
  · simp only
    split <;> rfl

/-- A run of the engine that printed `out` and changed nothing a program sees. -/
structure Prints (m₀ : Machine) (side : HostSide)
    (result : Machine × HostSide × Except EmuError (List Byte)) (out : List Byte) : Prop where
  view : SameView m₀ result.1
  scratch : ScratchOnly side result.2.1
  ok : result.2.2 = .ok out

/-- A `%` with no conversion behind it stands for itself. -/
theorem run_formatFrom_trailing {spec : FormatSpec} {w w₁ : VarargWalker} {rest : List Byte}
    (hparse : (parseSpec rest w).run m = (m₁, .ok (spec, rest.length, w₁))) (pos : Nat)
    (out : List Byte) :
    (formatFrom pos 0 w out (0x25 :: rest)).run side closed m =
      (m₁, side, .ok (out ++ [0x25])) := by
  have hparse' : (liftM (parseSpec rest w) : Stub _).run side closed m =
      (m₁, side, .ok (spec, rest.length, w₁)) := by
    rw [Stub.run_liftM, hparse]
  rw [formatFrom, if_neg (not_not_intro rfl), Stub.run_bind_ok hparse']
  simp only [List.getElem?_length]
  rfl

/-- The engine prints the format, and prints it the same wherever the arguments are. -/
theorem formatFrom_renders {bytes out out' : List Byte} {pos skip : Nat} {w : VarargWalker}
    (hview : SameView m₀ m)
    (hok : ((formatFrom pos skip w out bytes).run side closed m).2.2 = .ok out') :
    Prints m₀ side ((formatFrom pos skip w out bytes).run side closed m) out' ∧
    out'.length ≤ max out.length maxPrintfCallBytes + bytes.length ∧
    ∃ kinds text, out' = out ++ text ∧ Renders m₀ (bytes.drop skip) w.toArgCursor kinds text ∧
      ∀ (m₀' m' : Machine) (w' : VarargWalker) (side' : HostSide) (closed' : Bool),
        SameView m₀' m' → m₀'.mem = m₀.mem → w'.drawn m₀' kinds = w.drawn m₀ kinds →
        Prints m₀' side' ((formatFrom pos skip w' out bytes).run side' closed' m') out' := by
  induction bytes generalizing pos skip w out side m with
  | nil =>
      rw [formatFrom, Stub.run_pure] at hok ⊢
      cases hok
      refine ⟨⟨hview, .refl side, rfl⟩, by simp, [], [], by simp, ?_, ?_⟩
      · rw [List.drop_nil]
        exact .done w.toArgCursor
      · intro m₀' m' w' side' closed' hview' _ _
        rw [formatFrom, Stub.run_pure]
        exact ⟨hview', .refl side', rfl⟩
  | cons b rest ih =>
      cases skip with
      | succ skip =>
          obtain ⟨hprints, hlen, kinds, text, htext, hrenders, hagree⟩ := ih hview hok
          refine ⟨hprints, ?_, kinds, text, htext, hrenders, hagree⟩
          rw [List.length_cons]
          omega
      | zero =>
          by_cases hb : b = 0x25
          · subst hb
            obtain ⟨word, behind, kinds₁, hrest, specOf, hparse⟩ := run_parseSpec rest
            obtain ⟨m₁, w₁, d, hrun₁, hview₁, hw₁, hdirects, hcaps⟩ := hparse m₀ m w hview
            cases behind with
            | nil =>
                rw [List.append_nil] at hrest
                subst hrest
                rw [run_formatFrom_trailing hrun₁] at hok ⊢
                cases hok
                refine ⟨⟨hview₁, .refl side, rfl⟩, ?_, kinds₁, [0x25], rfl, .trailing hdirects, ?_⟩
                · rw [List.length_append, List.length_singleton, List.length_cons]
                  omega
                · intro m₀' m' w' side' closed' hview' _ _
                  obtain ⟨m₁', w₁', _, hrun₁', hview₁', _, _, _⟩ := hparse m₀' m' w' hview'
                  rw [run_formatFrom_trailing hrun₁']
                  exact ⟨hview₁', .refl side', rfl⟩
            | cons conv tail =>
                have hconv : rest[word.length]? = some conv := by
                  rw [hrest, List.getElem?_append_right le_rfl, Nat.sub_self]
                  rfl
                have hdrop : rest.drop (word.length + 1) = tail := by
                  rw [hrest, drop_append_length_add]
                  rfl
                obtain ⟨kinds₂, field, hformats⟩ :=
                  formats_conversion (specOf (w.drawn m₀ kinds₁)) conv
                obtain ⟨_, _, _, _, _, _, _, hconverts⟩ := hformats side closed m₀ m₁ w₁ hview₁
                obtain ⟨m₂, side₂, w₂, hview₂, hscratch, hw₂, hrun⟩ :=
                  @run_formatFrom_directive _ _ _ side closed _ _ _ _ hformats _ _ _ _
                    hrun₁ hview₁ hconv pos out
                rw [hrun] at hok ⊢
                generalize hfield : field m₀.mem (w₁.drawn m₀ kinds₂) = result at hok hconverts ⊢
                obtain ⟨text, e | done⟩ := result
                · cases hok
                simp only at hok ⊢
                by_cases hlong : maxPrintfCallBytes < (out ++ text).length
                · rw [if_pos hlong] at hok
                  cases hok
                rw [if_neg hlong] at hok ⊢
                obtain ⟨hprints, hlen, kinds₃, text', htext', hrenders, hagree⟩ := ih hview₂ hok
                rw [hdrop] at hrenders
                have htext : text.length < maxFieldWidth := by
                  rw [List.length_append] at hlong
                  unfold maxFieldWidth
                  omega
                have hconverts := hconverts d text hcaps rfl htext
                rw [hw₁] at hconverts hw₂
                rw [hw₂] at hrenders
                refine ⟨⟨hprints.view, hscratch.trans hprints.scratch, hprints.ok⟩, ?_,
                  kinds₁ ++ (kinds₂ ++ kinds₃), text ++ text', by rw [htext', List.append_assoc],
                  .directive hdirects hconverts hrenders, ?_⟩
                · rw [List.length_cons]
                  omega
                · intro m₀' m' w' side' closed' hview' hmem hargs
                  obtain ⟨hargs₁, hargs⟩ := ArgCursor.drawn_append_inj hargs
                  obtain ⟨hargs₂, hargs₃⟩ := ArgCursor.drawn_append_inj hargs
                  obtain ⟨m₁', w₁', _, hrun₁', hview₁', hw₁', _, _⟩ := hparse m₀' m' w' hview'
                  rw [hargs₁] at hrun₁'
                  obtain ⟨m₂', side₂', w₂', hview₂', hscratch', hw₂', hrun'⟩ :=
                    @run_formatFrom_directive _ _ _ side' closed' _ _ _ _ hformats _ _
                      _ _ hrun₁' hview₁' hconv pos out
                  have hfield' : field m₀'.mem (w₁'.drawn m₀' kinds₂) = (text, .ok done) := by
                    rw [hmem, hw₁', hargs₂, ← hw₁, hfield]
                  rw [hrun', hfield']
                  simp only
                  rw [if_neg hlong]
                  have hprints' := hagree m₀' m₂' w₂' side₂' closed' hview₂' hmem
                    (by rw [hw₂', hw₁', hw₂]; exact hargs₃)
                  exact ⟨hprints'.view, hscratch'.trans hprints'.scratch, hprints'.ok⟩
          · have hstep : ∀ w pos, formatFrom pos 0 w out (b :: rest) =
                formatFrom (pos + 1) 0 w (out ++ [b]) rest := by
              intro w pos
              rw [formatFrom, if_pos hb]
            rw [hstep] at hok ⊢
            obtain ⟨hprints, hlen, kinds, text, htext, hrenders, hagree⟩ := ih hview hok
            refine ⟨hprints, ?_, kinds, b :: text, by rw [htext, List.append_assoc]; rfl,
              .literal hb hrenders, ?_⟩
            · rw [List.length_append, List.length_singleton] at hlen
              rw [List.length_cons]
              omega
            · intro m₀' m' w' side' closed' hview' hmem hargs
              rw [hstep]
              exact hagree m₀' m' w' side' closed' hview' hmem hargs

end Run

end Hosted

end Playground
