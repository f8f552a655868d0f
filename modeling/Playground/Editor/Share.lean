/-
Share links: the whole editor state as JSON in the fragment of a URL, and the reader that
opens one.
-/
import Playground.Library.Json

namespace Playground

namespace Share

/-- A number, by the decimal that shows it; an integer has no exponent. -/
structure Number where
  mantissa : Int
  exponent : Int
deriving DecidableEq, Repr

def Number.value (n : Number) : ℚ := n.mantissa * (10 : ℚ) ^ n.exponent

structure SharedFile where
  name : CodeUnits
  body : CodeUnits
deriving DecidableEq, Repr

structure Cursor where
  line : Number
  column : Number
deriving DecidableEq, Repr

/-- A program's own test case. -/
structure ProgramCheck where
  name : CodeUnits
  stdin : CodeUnits
  args : CodeUnits
  stdout : CodeUnits
  exitCode : Option Number
deriving DecidableEq, Repr

structure ShareState where
  source : CodeUnits
  files : Option (List SharedFile)
  args : Option CodeUnits
  stdin : Option CodeUnits
  cursor : Option Cursor
  checks : Option (List ProgramCheck)
deriving DecidableEq, Repr

inductive ShareReadResult
  | none
  | ok (state : ShareState)
  | corrupt
  | tooLarge
deriving DecidableEq, Repr

def maxShareFiles : Nat := 16

def maxShareDecompressedBytes : Nat := 1 * 1024 * 1024

def maxShareHashBytes : Nat := 16 * 1024

section Names

/-- The white space `trim` takes off. -/
def isSpace (u : UInt16) : Bool :=
  decide (9 ≤ u ∧ u ≤ 13) || u = 32 || u = 0xa0 || u = 0x1680 ||
    decide (0x2000 ≤ u ∧ u ≤ 0x200a) || u = 0x2028 || u = 0x2029 || u = 0x202f ||
    u = 0x205f || u = 0x3000 || u = 0xfeff

def trim (s : CodeUnits) : CodeUnits := (s.dropWhile isSpace).rdropWhile isSpace

def isAlnum (u : UInt16) : Bool :=
  decide (65 ≤ u ∧ u ≤ 90) || decide (97 ≤ u ∧ u ≤ 122) || decide (48 ≤ u ∧ u ≤ 57)

/-- Letters, digits, dot, dash and underscore, with a letter or digit in front. -/
def fileNameShape : CodeUnits → Bool
  | [] => false
  | u :: s => isAlnum u && s.all fun v => isAlnum v || v = 46 || v = 95 || v = 45

def lowered (u : UInt16) : UInt16 := if 65 ≤ u ∧ u ≤ 90 then u + 32 else u

/-- Names the main buffer already answers to. -/
def isMainName (s : CodeUnits) : Bool :=
  decide (s.map lowered = codeUnits "main.asm") || decide (s.map lowered = codeUnits "main.s")

def maxFileNameChars : Nat := 64

def fileNameShapeError (name : CodeUnits) : Option CodeUnits :=
  let trimmed := trim name
  if trimmed.length = 0 then some (codeUnits "file name cannot be empty")
  else if trimmed.length > maxFileNameChars then
    some (codeUnits "file name is too long (max 64 characters)")
  else if fileNameShape trimmed = false then
    some (codeUnits "file names may use letters, digits, dot, dash, and underscore only")
  else none

/-- Why a name cannot be used for the file at an index. -/
def validateFileName (name : CodeUnits) (files : List SharedFile) (exceptIndex : Nat) :
    Option CodeUnits :=
  let trimmed := trim name
  match fileNameShapeError trimmed with
  | some shape => some shape
  | none =>
      if isMainName trimmed then
        some (codeUnits "main.asm is the editor's own buffer; pick another name")
      else if (files.zipIdx.any fun f => f.2 ≠ exceptIndex && f.1.name = trimmed) then
        some (codeUnits "a file named " ++ trimmed ++ codeUnits " is already open")
      else none

/-- Every name passes its own check. -/
def namesValid (files : List SharedFile) : Bool :=
  files.zipIdx.all fun f => (validateFileName f.1.name files f.2).isNone

end Names

section Checks

def maxChecks : Nat := 32

def maxNameChars : Nat := 100

def maxArgsChars : Nat := 1000

def maxStdinBytes : Nat := 100 * 1024

def isExitStatus (n : Number) : Bool :=
  decide (n.value.den = 1 ∧ 0 ≤ n.value ∧ n.value ≤ 255)

def ProgramCheck.withinCaps (c : ProgramCheck) : Bool :=
  decide (c.name.length ≤ maxNameChars) &&
    decide (CodeUnits.byteLength c.stdin ≤ maxStdinBytes) &&
    decide (c.args.length ≤ maxArgsChars) &&
    decide (CodeUnits.byteLength c.stdout ≤ maxStdinBytes) && c.exitCode.all isExitStatus

/-- The members of a link's objects. -/
inductive Member
  | source | files | args | stdin | cursor | checks | h
  | name | body | line | column | stdout | exitCode
deriving DecidableEq

def Member.all : List Member :=
  [.source, .files, .args, .stdin, .cursor, .checks, .h, .name, .body, .line, .column, .stdout,
    .exitCode]

def Member.key : Member → CodeUnits
  | .source => codeUnits "source"
  | .files => codeUnits "files"
  | .args => codeUnits "args"
  | .stdin => codeUnits "stdin"
  | .cursor => codeUnits "cursor"
  | .checks => codeUnits "checks"
  | .h => codeUnits "h"
  | .name => codeUnits "name"
  | .body => codeUnits "body"
  | .line => codeUnits "line"
  | .column => codeUnits "column"
  | .stdout => codeUnits "stdout"
  | .exitCode => codeUnits "exitCode"

def stringField (m : Member) (o : Json) : Option CodeUnits :=
  match o.get? m.key with
  | some (.str s) => some s
  | _ => none

def numberField (m : Member) (o : Json) : Option Number :=
  match o.get? m.key with
  | some (.num mantissa exponent) => some ⟨mantissa, exponent⟩
  | _ => none

/-- A check's exit code: absent, or a number. -/
def exitCodeField (o : Json) : Option (Option Number) :=
  match o.get? Member.exitCode.key with
  | none => some none
  | some (.num mantissa exponent) => some (some ⟨mantissa, exponent⟩)
  | some _ => none

/-- A check of an untrusted list, copied down to its known fields. -/
def readCheck (o : Json) : Option ProgramCheck :=
  match stringField .name o, stringField .stdin o, stringField .args o,
    stringField .stdout o, exitCodeField o with
  | some name, some stdin, some args, some stdout, some exitCode =>
      let c : ProgramCheck := ⟨name, stdin, args, stdout, exitCode⟩
      if c.withinCaps then some c else none
  | _, _, _, _, _ => none

/-- The checks in an untrusted value; one bad entry drops the list. -/
def parseChecks : Option Json → Option (List ProgramCheck)
  | some (.arr items) => if items.length > maxChecks then none else items.mapM readCheck
  | _ => none

end Checks

section Writing

/-- djb2 over the source; the shift wraps at 32 bits. -/
def sourceHash (source : CodeUnits) : Nat :=
  source.foldl (fun h u => ((h <<< 5) + h + u.toNat) % 2 ^ 32) 5381

def hexText (n : Nat) : CodeUnits :=
  if n = 0 then [48] else (Nat.digits 16 n).reverse.map Json.hexUnit

def sourceChecksum (source : CodeUnits) : CodeUnits := hexText (sourceHash source)

def Number.toJson (n : Number) : Json := .num n.mantissa n.exponent

def SharedFile.toJson (f : SharedFile) : Json :=
  .obj [(Member.name.key, .str f.name), (Member.body.key, .str f.body)]

def Cursor.toJson (c : Cursor) : Json :=
  .obj [(Member.line.key, c.line.toJson), (Member.column.key, c.column.toJson)]

/-- A member that is written only when it has a value. -/
def member (m : Member) (j : Option Json) : List (CodeUnits × Json) :=
  (j.map fun j => (m.key, j)).toList

def ProgramCheck.toJson (c : ProgramCheck) : Json :=
  .obj ([(Member.name.key, .str c.name), (Member.stdin.key, .str c.stdin),
    (Member.args.key, .str c.args), (Member.stdout.key, .str c.stdout)] ++
    member .exitCode (c.exitCode.map Number.toJson))

def ShareState.toJson (st : ShareState) : Json :=
  .obj ([(Member.source.key, .str st.source)] ++
    member .files (st.files.map fun files => .arr (files.map SharedFile.toJson)) ++
    member .args (st.args.map .str) ++ member .stdin (st.stdin.map .str) ++
    member .cursor (st.cursor.map Cursor.toJson) ++
    member .checks (st.checks.map fun checks => .arr (checks.map ProgramCheck.toJson)) ++
    [(Member.h.key, .str (sourceChecksum st.source))])

end Writing

section Links

variable (compress : CodeUnits → CodeUnits) (decompress : CodeUnits → Option CodeUnits)

def hashSign : CodeUnits := codeUnits "#"

def prefixV2 : CodeUnits := codeUnits "p2="

def prefixV1 : CodeUnits := codeUnits "p="

def buildShareHash (st : ShareState) : CodeUnits :=
  hashSign ++ (prefixV2 ++ compress st.toJson.text)

/-- What is behind a prefix, if the text has it. -/
def afterPrefix? (lead s : CodeUnits) : Option CodeUnits :=
  if lead.isPrefixOf s then some (s.drop lead.length) else none

def withoutHashSign (hash : CodeUnits) : CodeUnits := (afterPrefix? hashSign hash).getD hash

/-- The payload's length; the cap on it is `maxShareHashBytes`. -/
def shareHashSize (hash : CodeUnits) : Nat :=
  let trimmed := withoutHashSign hash
  match afterPrefix? prefixV2 trimmed with
  | some payload => payload.length
  | none => ((afterPrefix? prefixV1 trimmed).getD trimmed).length

def readFile (o : Json) : Option SharedFile :=
  match stringField .name o, stringField .body o with
  | some name, some body => some ⟨name, body⟩
  | _, _ => none

/-- The files of a payload; a list of the wrong shape is an old link's. -/
def readFiles : Option Json → Option (List SharedFile)
  | some (.arr items) => if items.length ≤ maxShareFiles then items.mapM readFile else none
  | _ => none

def readCursor (o : Json) : Option Cursor :=
  (o.get? Member.cursor.key).bind fun c =>
    match numberField .line c, numberField .column c with
    | some line, some column => some ⟨line, column⟩
    | _, _ => none

def trimName (f : SharedFile) : SharedFile := { f with name := trim f.name }

/-- The state in a decoded payload. -/
def readState (o : Json) : ShareReadResult :=
  match stringField .source o with
  | none => .corrupt
  | some source =>
      if (stringField .h o).any fun h => h ≠ sourceChecksum source then .corrupt
      else
        let files := (readFiles (o.get? Member.files.key)).map (List.map trimName)
        -- a bad name refuses the whole link
        if files.any fun files => !namesValid files then .corrupt
        else
          .ok
            { source := source
              files := files
              args := stringField .args o
              stdin := stringField .stdin o
              cursor := readCursor o
              checks := (parseChecks (o.get? Member.checks.key)).filter (· ≠ []) }

def readPayloadV2 (compressed : CodeUnits) : ShareReadResult :=
  if compressed.length > maxShareHashBytes then .tooLarge
  else
    match decompress compressed with
    | none => .corrupt
    | some decoded =>
        if decoded = [] then .corrupt
        else if decoded.length > maxShareDecompressedBytes then .tooLarge
        else
          match Json.parse decoded with
          | none => .corrupt
          | some o => readState o

def readPayloadV1 (compressed : CodeUnits) : ShareReadResult :=
  if compressed.length > maxShareHashBytes then .tooLarge
  else
    match decompress compressed with
    | none => .corrupt
    | some decoded =>
        if decoded = [] then .corrupt
        else if decoded.length > maxShareDecompressedBytes then .tooLarge
        else .ok ⟨decoded, none, none, none, none, none⟩

/-- What a location hash opens. -/
def readShareHash (hash : CodeUnits) : ShareReadResult :=
  let trimmed := withoutHashSign hash
  match afterPrefix? prefixV2 trimmed with
  | some compressed => readPayloadV2 decompress compressed
  | none =>
      match afterPrefix? prefixV1 trimmed with
      | some compressed => readPayloadV1 decompress compressed
      | none => .none

/-- Whether the receiver of a link gets all of it, as the share dialog finds out with the
reader. -/
def whole (st : ShareState) : Bool :=
  match readShareHash decompress (buildShareHash compress st) with
  | .ok read =>
      decide ((read.checks.getD []).length = (st.checks.getD []).length) &&
        decide ((read.files.getD []).length = (st.files.getD []).length)
  | _ => false

end Links

section Members

theorem Member.mem_all (m : Member) : m ∈ Member.all := by
  cases m with
  | _ => decide

theorem Member.keys_nodup : (Member.all.map Member.key).Nodup := by decide

theorem Member.key_inj {a b : Member} : a.key = b.key ↔ a = b := by
  constructor
  · exact List.inj_on_of_nodup_map Member.keys_nodup a.mem_all b.mem_all
  · rintro rfl
    rfl

theorem get?_append (key : CodeUnits) (front back : List (CodeUnits × Json)) :
    (Json.obj (front ++ back)).get? key =
      ((Json.obj back).get? key).or ((Json.obj front).get? key) := by
  simp only [Json.get?, List.reverse_append, List.find?_append]
  cases hback : back.reverse.find? fun m => decide (m.1 = key) with
  | none => simp
  | some m => simp

theorem get?_cons (key : CodeUnits) (m : CodeUnits × Json) (back : List (CodeUnits × Json)) :
    (Json.obj (m :: back)).get? key =
      ((Json.obj back).get? key).or (if m.1 = key then some m.2 else none) := by
  have hfront : (Json.obj [m]).get? key = if m.1 = key then some m.2 else none := by
    by_cases hm : m.1 = key
    · simp [Json.get?, hm]
    · simp [Json.get?, hm]
  rw [← hfront, ← get?_append, List.singleton_append]

theorem get?_nil (key : CodeUnits) : (Json.obj []).get? key = none := rfl

theorem get?_member (key : CodeUnits) (m : Member) (j : Option Json) :
    (Json.obj (member m j)).get? key = if m.key = key then j else none := by
  cases j with
  | none => simp [member, get?_nil]
  | some j => simp [member, get?_cons, get?_nil]

end Members

section Reading

variable {st : ShareState}

theorem mapM_map_eq_some {α β : Type} {write : α → β} {read : β → Option α} {xs : List α}
    (h : ∀ x ∈ xs, read (write x) = some x) : (xs.map write).mapM read = some xs := by
  induction xs with
  | nil => rfl
  | cons x xs ih =>
      obtain ⟨hx, hxs⟩ := List.forall_mem_cons.1 h
      simp [hx, ih hxs]

theorem readFile_toJson (f : SharedFile) : readFile f.toJson = some f := by
  simp [readFile, stringField, SharedFile.toJson, get?_cons, get?_nil, Member.key_inj]

theorem readCheck_toJson {c : ProgramCheck} (hc : c.withinCaps = true) :
    readCheck c.toJson = some c := by
  obtain ⟨name, stdin, args, stdout, exitCode⟩ := c
  cases exitCode with
  | none =>
      simp [readCheck, stringField, exitCodeField, ProgramCheck.toJson, get?_member, get?_cons,
        Member.key_inj, hc]
  | some n =>
      simp [readCheck, stringField, exitCodeField, ProgramCheck.toJson, Number.toJson,
        get?_member, get?_cons, Member.key_inj, hc]

theorem readFiles_toJson (files : List SharedFile) :
    readFiles (some (.arr (files.map SharedFile.toJson))) =
      if files.length ≤ maxShareFiles then some files else none := by
  rw [readFiles, List.length_map, mapM_map_eq_some fun f _ => readFile_toJson f]

theorem get?_toJson (m : Member) :
    st.toJson.get? m.key =
      match m with
      | .source => some (.str st.source)
      | .files => st.files.map fun files => .arr (files.map SharedFile.toJson)
      | .args => st.args.map .str
      | .stdin => st.stdin.map .str
      | .cursor => st.cursor.map Cursor.toJson
      | .checks => st.checks.map fun checks => .arr (checks.map ProgramCheck.toJson)
      | .h => some (.str (sourceChecksum st.source))
      | _ => none := by
  cases m with
  | _ => simp [ShareState.toJson, get?_append, get?_member, get?_cons, get?_nil, Member.key_inj]

/-- The state with its empty list of checks dropped. -/
def ShareState.normal (st : ShareState) : ShareState :=
  { st with checks := st.checks.filter (· ≠ []) }

def ShareState.trimmed (st : ShareState) : ShareState :=
  { st with files := st.files.map (List.map trimName) }

/-- What the app sees to: names and checks pass their own checks, and numbers are integers. -/
structure ShareState.Valid (st : ShareState) : Prop where
  names : ∀ files ∈ st.files, namesValid files = true
  length_checks : ∀ checks ∈ st.checks, checks.length ≤ maxChecks
  checks : ∀ checks ∈ st.checks, ∀ c ∈ checks, c.withinCaps = true
  cursor : ∀ c ∈ st.cursor, c.line.exponent = 0 ∧ c.column.exponent = 0
  exitCodes : ∀ checks ∈ st.checks, ∀ c ∈ checks, ∀ n ∈ c.exitCode, n.exponent = 0

/-- The files a reader takes from a link. -/
def ShareState.readFiles (st : ShareState) : Option (List SharedFile) :=
  (st.files.filter fun files => files.length ≤ maxShareFiles).map (List.map trimName)

theorem parseChecks_toJson (hst : st.Valid) :
    (parseChecks (st.toJson.get? Member.checks.key)).filter (· ≠ []) = st.normal.checks := by
  rw [get?_toJson]
  cases hchecks : st.checks with
  | none => simp [parseChecks, ShareState.normal, hchecks]
  | some checks =>
      have hlength := hst.length_checks checks hchecks
      have hread := mapM_map_eq_some fun c hc => readCheck_toJson (hst.checks checks hchecks c hc)
      simp [parseChecks, ShareState.normal, hchecks, hread, Nat.not_lt.2 hlength]

theorem readCursor_toJson : readCursor st.toJson = st.cursor := by
  rw [readCursor, get?_toJson]
  cases hcursor : st.cursor with
  | none => rfl
  | some c =>
      simp [numberField, Cursor.toJson, Number.toJson, get?_cons, get?_nil, Member.key_inj]

theorem stringField_toJson_args : stringField .args st.toJson = st.args := by
  rw [stringField, get?_toJson]
  cases st.args with
  | none => rfl
  | some args => rfl

theorem stringField_toJson_stdin : stringField .stdin st.toJson = st.stdin := by
  rw [stringField, get?_toJson]
  cases st.stdin with
  | none => rfl
  | some stdin => rfl

theorem readFiles_field :
    (readFiles (st.toJson.get? Member.files.key)).map (List.map trimName) = st.readFiles := by
  rw [get?_toJson, ShareState.readFiles]
  cases hfiles : st.files with
  | none => rfl
  | some files =>
      rw [Option.map_some, readFiles_toJson]
      by_cases hlength : files.length ≤ maxShareFiles
      · simp [hlength]
      · simp [hlength, Nat.lt_of_not_le hlength]

/-- A link's own payload is refused for its names alone. -/
theorem readState_toJson (hst : st.Valid) :
    readState st.toJson =
      if st.readFiles.any fun files => !namesValid files then .corrupt
      else .ok { st.normal with files := st.readFiles } := by
  have hsource : stringField .source st.toJson = some st.source := by
    rw [stringField, get?_toJson]
  have hsum : stringField .h st.toJson = some (sourceChecksum st.source) := by
    rw [stringField, get?_toJson]
  simp only [readState, hsource, hsum, parseChecks_toJson hst, readCursor_toJson,
    stringField_toJson_args, stringField_toJson_stdin, readFiles_field]
  simp [ShareState.normal]

end Reading

section RoundTrip

variable {compress : CodeUnits → CodeUnits} {decompress : CodeUnits → Option CodeUnits}
variable {st : ShareState}

theorem afterPrefix?_append (lead s : CodeUnits) : afterPrefix? lead (lead ++ s) = some s := by
  rw [afterPrefix?, if_pos (List.isPrefixOf_iff_prefix.2 (List.prefix_append lead s)),
    List.drop_left]

theorem withoutHashSign_build :
    withoutHashSign (buildShareHash compress st) = prefixV2 ++ compress st.toJson.text := by
  rw [withoutHashSign, buildShareHash, afterPrefix?_append, Option.getD_some]

theorem shareHashSize_build :
    shareHashSize (buildShareHash compress st) = (compress st.toJson.text).length := by
  simp only [shareHashSize, withoutHashSign_build, afterPrefix?_append]

/-- What a link the sender has measured opens to. -/
theorem readShareHash_build (hlossless : ∀ s, decompress (compress s) = some s)
    (hst : st.Valid) :
    readShareHash decompress (buildShareHash compress st) =
      if shareHashSize (buildShareHash compress st) > maxShareHashBytes then .tooLarge
      else if st.toJson.text.length > maxShareDecompressedBytes then .tooLarge
      else if st.readFiles.any fun files => !namesValid files then .corrupt
      else .ok { st.normal with files := st.readFiles } := by
  have htext : st.toJson.text ≠ [] := List.ne_nil_of_length_pos (Json.length_text_pos _)
  rw [shareHashSize_build, readShareHash, withoutHashSign_build, afterPrefix?_append]
  simp only [readPayloadV2, hlossless, htext, if_false, Json.parse_text, readState_toJson hst]

/-- No part of a state is over a cap of the reader, and its names need no trimming. -/
def ShareState.Fits (st : ShareState) : Prop :=
  st.toJson.text.length ≤ maxShareDecompressedBytes ∧
    ∀ files ∈ st.files, files.length ≤ maxShareFiles ∧ ∀ f ∈ files, trim f.name = f.name

theorem map_trimName_eq_self {files : List SharedFile} :
    files.map trimName = files ↔ ∀ f ∈ files, trim f.name = f.name := by
  have hself : ∀ f : SharedFile, trimName f = f ↔ trim f.name = f.name := by
    intro f
    constructor
    · intro h
      have hname := congrArg SharedFile.name h
      exact hname
    · intro h
      rw [trimName, h]
  constructor
  · intro h f hf
    exact (hself f).1 (List.map_inj_left.1 (h.trans (List.map_id files).symm) f hf)
  · intro h
    exact (List.map_inj_left.2 fun f hf => (hself f).2 (h f hf)).trans (List.map_id files)

theorem readFiles_eq_self (hfits : ∀ files ∈ st.files, files.length ≤ maxShareFiles ∧
    ∀ f ∈ files, trim f.name = f.name) : st.readFiles = st.files := by
  rw [ShareState.readFiles]
  cases hfiles : st.files with
  | none => rfl
  | some files =>
      obtain ⟨hlength, htrim⟩ := hfits files hfiles
      rw [Option.filter_some, if_pos (by simpa using hlength), Option.map_some,
        map_trimName_eq_self.2 htrim]

theorem fits_of_readFiles (hread : st.readFiles = st.files) :
    ∀ files ∈ st.files, files.length ≤ maxShareFiles ∧ ∀ f ∈ files, trim f.name = f.name := by
  intro files hfiles
  rw [ShareState.readFiles, hfiles] at hread
  by_cases hlength : files.length ≤ maxShareFiles
  · rw [Option.filter_some, if_pos (by simpa using hlength), Option.map_some,
      Option.some.injEq] at hread
    exact ⟨hlength, map_trimName_eq_self.1 hread⟩
  · rw [Option.filter_some, if_neg (by simpa using hlength)] at hread
    simp at hread

theorem readFiles_namesValid (hst : st.Valid) (hread : st.readFiles = st.files) :
    (st.readFiles.any fun files => !namesValid files) = false := by
  rw [hread]
  cases hfiles : st.files with
  | none => rfl
  | some files => simp [hst.names files hfiles]

/-- Within the measured cap a link opens to its state when nothing of it is over another. -/
theorem readShareHash_eq_iff (hlossless : ∀ s, decompress (compress s) = some s)
    (hst : st.Valid)
    (hsize : shareHashSize (buildShareHash compress st) ≤ maxShareHashBytes) :
    readShareHash decompress (buildShareHash compress st) = .ok st.normal ↔ st.Fits := by
  rw [readShareHash_build hlossless hst, if_neg (Nat.not_lt.2 hsize)]
  by_cases hlength : st.toJson.text.length > maxShareDecompressedBytes
  · rw [if_pos hlength]
    constructor
    · intro h
      cases h
    · intro hfits
      exact absurd hfits.1 (Nat.not_le.2 hlength)
  · rw [if_neg hlength]
    constructor
    · intro h
      refine ⟨Nat.not_lt.1 hlength, fits_of_readFiles ?_⟩
      by_cases hnames : st.readFiles.any fun files => !namesValid files
      · rw [if_pos hnames] at h
        cases h
      · rw [if_neg hnames] at h
        exact congrArg ShareState.files (ShareReadResult.ok.inj h)
    · intro hfits
      have hread := readFiles_eq_self hfits.2
      rw [readFiles_namesValid hst hread, hread]
      rfl

/-- The dialog's count of the files tells whether the reader takes them. -/
theorem readFiles_length_iff :
    (st.readFiles.getD []).length = (st.files.getD []).length ↔
      st.readFiles = st.trimmed.files := by
  rw [ShareState.readFiles, ShareState.trimmed]
  cases hfiles : st.files with
  | none => simp
  | some files =>
      by_cases hlength : files.length ≤ maxShareFiles
      · rw [Option.filter_some, if_pos (by simpa using hlength)]
        simp
      · have hne : files.length ≠ 0 := by
          rintro hzero
          exact hlength (by simp [hzero])
        rw [Option.filter_some, if_neg (by simpa using hlength)]
        simpa using fun h => hne h.symm

theorem normal_checks_length :
    (st.normal.checks.getD []).length = (st.checks.getD []).length := by
  rw [ShareState.normal]
  cases hchecks : st.checks with
  | none => rfl
  | some checks =>
      by_cases hnil : checks = []
      · simp [hnil, Option.filter_some]
      · simp [hnil, Option.filter_some]

/-- The dialog says a link is whole when it opens to the state, names trimmed. -/
theorem whole_iff (hlossless : ∀ s, decompress (compress s) = some s) (hst : st.Valid) :
    whole compress decompress st = true ↔
      readShareHash decompress (buildShareHash compress st) = .ok st.trimmed.normal := by
  rw [whole, readShareHash_build hlossless hst]
  by_cases hsize : shareHashSize (buildShareHash compress st) > maxShareHashBytes
  · simp [hsize]
  rw [if_neg hsize]
  by_cases hlength : st.toJson.text.length > maxShareDecompressedBytes
  · simp [hlength]
  rw [if_neg hlength]
  by_cases hnames : st.readFiles.any fun files => !namesValid files
  · simp [hnames]
  rw [if_neg hnames]
  simp only [normal_checks_length, readFiles_length_iff, decide_true, Bool.true_and,
    decide_eq_true_eq, ShareReadResult.ok.injEq]
  constructor
  · intro h
    rw [h]
    rfl
  · intro h
    exact congrArg ShareState.files h

/-- Within the measured cap a link opens to exactly its state when its text is within the
other cap, its files are few enough and no name has white space at an end; and the dialog
calls a link whole exactly when it opens to the state it was made from. -/
theorem share_link_opens (hlossless : ∀ s, decompress (compress s) = some s)
    (hst : st.Valid) :
    (shareHashSize (buildShareHash compress st) ≤ maxShareHashBytes →
      (readShareHash decompress (buildShareHash compress st) = .ok st.normal ↔ st.Fits)) ∧
    (whole compress decompress st = true ↔
      readShareHash decompress (buildShareHash compress st) = .ok st.trimmed.normal) :=
  ⟨readShareHash_eq_iff hlossless hst, whole_iff hlossless hst⟩

/-- A state with one file and one check. -/
def smallState : ShareState :=
  { source := codeUnits "ret"
    files := some [⟨codeUnits "a.s", codeUnits "nop"⟩]
    args := none
    stdin := some []
    cursor := some ⟨⟨3, 0⟩, ⟨7, 0⟩⟩
    checks := some [⟨[], [], [], codeUnits "2", some ⟨0, 0⟩⟩] }

theorem smallState_valid : smallState.Valid where
  names := by
    rintro files ⟨⟩
    decide
  length_checks := by
    rintro checks ⟨⟩
    decide
  checks := by
    rintro checks ⟨⟩
    exact List.all_eq_true.1 (by decide +kernel)
  cursor := by
    rintro c ⟨⟩
    exact ⟨rfl, rfl⟩
  exitCodes := by
    rintro checks ⟨⟩
    simp

/-- What the compressor makes of the text of `smallState`. -/
def smallPayload : CodeUnits :=
  codeUnits "N4Igzg9grgTgxgUxALhDBAXEAaEAzASwBsEwUBtUAOwEMBbJVGgOjNwCMIATATxRCoQADiAC+AXVxgMX" ++
    codeUnits "AlX44QcWJBgpQROYwDMuOBCJQ685AHZRegBYI4AazLJKA+oxCLpsk29w0YAcwdvcBloLFQAJkUEAA8CD" ++
    codeUnits "ABhbkYABglcS352AA4smgBWPOSxIA"

/-- The compressor on that text.  Any other it keeps behind a character no payload has. -/
def smallCompress (s : CodeUnits) : CodeUnits :=
  if s = smallState.toJson.text then smallPayload else 33 :: s

def smallDecompress (s : CodeUnits) : Option CodeUnits :=
  if s = smallPayload then some smallState.toJson.text else s.tail?

theorem smallDecompress_compress (s : CodeUnits) : smallDecompress (smallCompress s) = some s := by
  have hother : 33 :: s ≠ smallPayload := by
    intro heq
    have hhead : (33 : UInt16) = 78 := Option.some.inj (congrArg List.head? heq)
    exact absurd hhead (by decide)
  by_cases htext : s = smallState.toJson.text
  · rw [smallCompress, if_pos htext, smallDecompress, if_pos rfl, htext]
  · rw [smallCompress, if_neg htext, smallDecompress, if_neg hother, List.tail?_cons]

/-- The link of `smallState` opens to it, and the dialog calls it whole. -/
theorem smallState_opens :
    buildShareHash smallCompress smallState = codeUnits "#p2=" ++ smallPayload ∧
      readShareHash smallDecompress (buildShareHash smallCompress smallState) =
        .ok smallState.normal ∧
      whole smallCompress smallDecompress smallState = true := by
  have hsize : shareHashSize (buildShareHash smallCompress smallState) ≤ maxShareHashBytes := by
    decide +kernel
  have hfits : smallState.Fits := by
    refine ⟨by decide +kernel, ?_⟩
    rintro files ⟨⟩
    decide
  obtain ⟨hopens, hwhole⟩ := share_link_opens smallDecompress_compress smallState_valid
  have hopens := (hopens hsize).mpr hfits
  exact ⟨by decide +kernel, hopens, hwhole.mpr hopens⟩

/-- Seventeen empty files. -/
def manyFiles : ShareState :=
  { source := []
    files := some ((List.range 17).map fun i => ⟨[97 + UInt16.ofNat i], []⟩)
    args := none
    stdin := none
    cursor := none
    checks := none }

theorem manyFiles_valid : manyFiles.Valid where
  names := by
    rintro files ⟨⟩
    decide
  length_checks := nofun
  checks := nofun
  cursor := nofun
  exitCodes := nofun

/-- The reader drops them all. -/
theorem not_opens_manyFiles :
    ¬ ∀ st : ShareState, st.Valid →
      shareHashSize (buildShareHash id st) ≤ maxShareHashBytes →
      readShareHash some (buildShareHash id st) = .ok st.normal := by
  intro hlossless
  have hsize : shareHashSize (buildShareHash id manyFiles) ≤ maxShareHashBytes := by
    decide +kernel
  have hopens := hlossless manyFiles manyFiles_valid hsize
  have hfits := (@readShareHash_eq_iff id some manyFiles (fun _ => rfl) manyFiles_valid hsize).1
    hopens
  exact absurd (hfits.2 _ rfl).1 (by decide)

end RoundTrip

end Share

end Playground
