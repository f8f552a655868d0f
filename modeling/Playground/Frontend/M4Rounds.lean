/-
What a substitution round writes, apart from its size cap: the pieces of a line in
order, and the texts they put out one at a time.  The pass is those texts poured out
under the cap.
-/
import Playground.Frontend.M4

namespace Playground

namespace M4

/-- One text put out in one go, and whether it stands in place of a macro call. -/
structure Write where
  text : List Char
  replaced : Bool
deriving DecidableEq, Repr

/-- What a list of writes puts out. -/
def written (ws : List Write) : List Char := ws.flatMap Write.text

@[simp] theorem written_nil : written [] = [] := rfl

@[simp] theorem written_cons (w : Write) (ws : List Write) :
    written (w :: ws) = w.text ++ written ws := by
  simp [written]

@[simp] theorem written_append (ws ws' : List Write) :
    written (ws ++ ws') = written ws ++ written ws' := by
  simp [written]

/-- Put texts out one at a time, looking at the cap before each. -/
def pour (limit : Nat) : List Write → List Char → List Char × Option Stop
  | [], out => (out, none)
  | w :: ws, out =>
      if limit < Lexer.utf8Size out then (out, some .cap) else pour limit ws (out ++ w.text)

theorem pour_append (limit : Nat) (ws ws' : List Write) (out : List Char) :
    pour limit (ws ++ ws') out =
      match pour limit ws out with
      | (built, some stop) => (built, some stop)
      | (built, none) => pour limit ws' built := by
  induction ws generalizing out with
  | nil => rfl
  | cons w ws ih =>
      by_cases hcap : limit < Lexer.utf8Size out
      · simp [pour, hcap]
      · simpa [pour, hcap] using ih (out ++ w.text)

/-- A pour that is not capped puts out everything. -/
theorem pour_eq_none {limit : Nat} {ws : List Write} {out built : List Char}
    (h : pour limit ws out = (built, none)) : built = out ++ written ws := by
  induction ws generalizing out with
  | nil =>
      obtain ⟨rfl, -⟩ := Prod.mk.inj h
      simp
  | cons w ws ih =>
      by_cases hcap : limit < Lexer.utf8Size out
      · simp [pour, hcap] at h
      · rw [pour, if_neg hcap] at h
        simpa using ih h

@[simp] theorem utf8Size_append (s t : List Char) :
    Lexer.utf8Size (s ++ t) = Lexer.utf8Size s + Lexer.utf8Size t := by
  simp [Lexer.utf8Size]

@[simp] theorem utf8Size_nil : Lexer.utf8Size [] = 0 := rfl

@[simp] theorem utf8Size_cons (c : Char) (s : List Char) :
    Lexer.utf8Size (c :: s) = c.utf8Size + Lexer.utf8Size s := by
  simp [Lexer.utf8Size]

/-- A pour whose whole text fits is not capped. -/
theorem pour_of_fits {limit : Nat} {ws : List Write} {out : List Char}
    (h : Lexer.utf8Size (out ++ written ws) ≤ limit) :
    pour limit ws out = (out ++ written ws, none) := by
  induction ws generalizing out with
  | nil => simp [pour]
  | cons w ws ih =>
      have hout : ¬ limit < Lexer.utf8Size out := by
        simp only [utf8Size_append] at h
        omega
      rw [pour, if_neg hout, ih (by simpa using h)]
      simp

/-- The texts a macro body puts out in a call, in order. -/
def bodyWrites (name : List Char) (args : List (List Char)) : Nat → List Char → List Write
  | _, [] => []
  | skip + 1, _ :: rest => bodyWrites name args skip rest
  | 0, c :: rest =>
      ⟨(bodyPiece name args c rest).1, true⟩ ::
        bodyWrites name args ((bodyPiece name args c rest).2 - 1) rest

theorem fillArgs_eq_pour (name : List Char) (args : List (List Char)) (limit skip : Nat)
    (body out : List Char) : fillArgs name args limit skip body out =
      pour limit (bodyWrites name args skip body) out := by
  induction body generalizing skip out with
  | nil => cases skip <;> rfl
  | cons c rest ih =>
      cases skip with
      | zero =>
          by_cases hcap : limit < Lexer.utf8Size out
          · simp [fillArgs, bodyWrites, pour, hcap]
          · simp only [fillArgs, bodyWrites, pour, if_neg hcap]
            exact ih _ _
      | succ skip => exact ih skip out

/-- What one piece puts out.  A call of an empty macro puts out nothing, in a turn of its
own. -/
def Piece.writes : Piece → List Write
  | .copied text => [⟨text, false⟩]
  | .replaced body => [⟨body, true⟩]
  | .call name body args => if body = [] then [⟨[], true⟩] else bodyWrites name args 0 body

theorem bodyWrites_ne_nil {name : List Char} {args : List (List Char)} {body : List Char}
    (h : body ≠ []) : bodyWrites name args 0 body ≠ [] := by
  cases body with
  | nil => exact absurd rfl h
  | cons c rest => simp [bodyWrites]

theorem Piece.writes_ne_nil (p : Piece) : p.writes ≠ [] := by
  cases p with
  | copied text => simp [writes]
  | replaced body => simp [writes]
  | call name body args =>
      by_cases hbody : body = []
      · simp [writes, hbody]
      · simpa [writes, hbody] using bodyWrites_ne_nil hbody

theorem Piece.write_eq_pour {limit : Nat} {out : List Char} (p : Piece)
    (h : ¬ limit < Lexer.utf8Size out) : p.write limit out = pour limit p.writes out := by
  cases p with
  | copied text => simp [write, writes, pour, h]
  | replaced body => simp [write, writes, pour, h]
  | call name body args =>
      by_cases hbody : body = []
      · simp [write, writes, hbody, fillArgs, pour, h]
      · simp only [write, writes, if_neg hbody]
        exact fillArgs_eq_pour name args limit 0 body out

/-- The pieces of a line, and why the last one could not be read if it could not. -/
def pieces (defines : Macros) (respectLiterals : Bool) :
    Nat → List Char → List Piece × Option Stop
  | _, [] => ([], none)
  | skip + 1, _ :: rest => pieces defines respectLiterals skip rest
  | 0, c :: rest =>
      match nextPiece defines respectLiterals c rest with
      | .error stop => ([], some stop)
      | .ok (piece, used) =>
          let more := pieces defines respectLiterals (used - 1) rest
          (piece :: more.1, more.2)

theorem pieces_skip (defines : Macros) (respectLiterals : Bool) (text after : List Char) :
    pieces defines respectLiterals text.length (text ++ after) =
      pieces defines respectLiterals 0 after := by
  induction text with
  | nil => rfl
  | cons c text ih => exact ih

/-- The pieces of a line whose first turn uses `c :: text`. -/
theorem pieces_cons {defines : Macros} {respectLiterals : Bool} {c : Char}
    {text after : List Char} {piece : Piece}
    (h : nextPiece defines respectLiterals c (text ++ after) = .ok (piece, text.length + 1)) :
    pieces defines respectLiterals 0 (c :: (text ++ after)) =
      (piece :: (pieces defines respectLiterals 0 after).1,
        (pieces defines respectLiterals 0 after).2) := by
  simp only [pieces, h, Nat.add_sub_cancel, pieces_skip]

/-- The texts a round over a line puts out.  A piece that could not be read is a turn that
puts out nothing. -/
def lineWrites (defines : Macros) (respectLiterals : Bool) (skip : Nat) (line : List Char) :
    List Write :=
  let read := pieces defines respectLiterals skip line
  read.1.flatMap Piece.writes ++ if read.2.isSome then [⟨[], false⟩] else []

section
variable {defines : Macros} {limit : Nat} {respectLiterals : Bool}

/-- A round is its writes poured out under the cap; one that gets through them may still
stop at a piece it could not read. -/
theorem substitutePass_eq (skip : Nat) (line out : List Char) :
    substitutePass defines limit respectLiterals skip line out =
      match pour limit (lineWrites defines respectLiterals skip line) out with
      | (built, some stop) => (built, some stop)
      | (built, none) => (built, (pieces defines respectLiterals skip line).2) := by
  induction line generalizing skip out with
  | nil => cases skip <;> rfl
  | cons c rest ih =>
      cases skip with
      | succ skip => exact ih skip out
      | zero =>
          by_cases hcap : limit < Lexer.utf8Size out
          · cases hnext : nextPiece defines respectLiterals c rest with
            | error stop =>
                simp [substitutePass, lineWrites, pieces, hnext, hcap, pour]
            | ok read =>
                obtain ⟨piece, used⟩ := read
                obtain ⟨w, ws, hws⟩ := List.exists_cons_of_ne_nil piece.writes_ne_nil
                simp [substitutePass, lineWrites, pieces, hnext, hcap, pour, hws]
          · cases hnext : nextPiece defines respectLiterals c rest with
            | error stop =>
                simp [substitutePass, lineWrites, pieces, hnext, hcap, pour]
            | ok read =>
                obtain ⟨piece, used⟩ := read
                have hwrite := piece.write_eq_pour hcap
                have hsplit : lineWrites defines respectLiterals 0 (c :: rest) =
                    piece.writes ++ lineWrites defines respectLiterals (used - 1) rest := by
                  simp [lineWrites, pieces, hnext]
                have hstop : (pieces defines respectLiterals 0 (c :: rest)).2 =
                    (pieces defines respectLiterals (used - 1) rest).2 := by
                  simp [pieces, hnext]
                rw [hsplit, pour_append, hstop, ← hwrite]
                simp only [substitutePass, if_neg hcap, hnext]
                cases hpiece : piece.write limit out with
                | mk built stop =>
                    cases stop with
                    | some stop => rfl
                    | none => exact ih (used - 1) built

/-- A round that gets through writes everything, and reads every piece. -/
theorem of_substitutePass_none {line built : List Char}
    (h : substitutePass defines limit respectLiterals 0 line [] = (built, none)) :
    built = written (lineWrites defines respectLiterals 0 line) ∧
      (pieces defines respectLiterals 0 line).2 = none := by
  rw [substitutePass_eq] at h
  cases hpour : pour limit (lineWrites defines respectLiterals 0 line) [] with
  | mk out stop =>
      rw [hpour] at h
      cases stop with
      | some stop => simp at h
      | none =>
          obtain ⟨rfl, hstop⟩ := Prod.mk.inj h
          exact ⟨pour_eq_none hpour, hstop⟩

/-- A round whose pieces all read, and whose text fits the cap, gets through. -/
theorem substitutePass_of_fits {line : List Char}
    (hread : (pieces defines respectLiterals 0 line).2 = none)
    (hfits : Lexer.utf8Size (written (lineWrites defines respectLiterals 0 line)) ≤ limit) :
    substitutePass defines limit respectLiterals 0 line [] =
      (written (lineWrites defines respectLiterals 0 line), none) := by
  have hpour := @pour_of_fits limit _ [] (by simpa using hfits)
  rw [substitutePass_eq, hpour]
  simp [hread]

theorem substituteOnceGnu_eq_ok {current next : List Char} {limit : Nat} :
    substituteOnceGnu current defines limit = .ok next ↔
      substitutePass defines limit false 0 current [] = (next, none) := by
  unfold substituteOnceGnu
  cases substitutePass defines limit false 0 current [] with
  | mk built stop => cases stop <;> simp

theorem substituteBounded_eq_ok {current next : List Char} {lineNum : Nat} :
    substituteBounded current defines lineNum = .ok next ↔
      substituteOnceGnu current defines (lineLimit current) = .ok next := by
  unfold substituteBounded
  cases substituteOnceGnu current defines (lineLimit current) <;> simp

end

end M4

end Playground
