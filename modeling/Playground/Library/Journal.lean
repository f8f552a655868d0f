/-
Undo journals.  A state is changed by operations that each append entries to a
log; reverting the log, newest entry first, gives the state the log began in.
-/
import Mathlib

namespace Journal

variable {σ ε : Type*} (revert : ε → σ → σ)

/-- Take back every entry, newest first. -/
def revertAll (entries : List ε) (s : σ) : σ :=
  entries.foldr revert s

@[simp] theorem revertAll_nil (s : σ) : revertAll revert [] s = s :=
  rfl

@[simp] theorem revertAll_cons (entry : ε) (entries : List ε) (s : σ) :
    revertAll revert (entry :: entries) s = revert entry (revertAll revert entries s) :=
  rfl

theorem revertAll_append (older newer : List ε) (s : σ) :
    revertAll revert (older ++ newer) s =
      revertAll revert older (revertAll revert newer s) :=
  List.foldr_append

/-- The entries lead from `s'` back to `s`. -/
def Undoes (s : σ) (entries : List ε) (s' : σ) : Prop :=
  revertAll revert entries s' = s

variable {revert}

theorem Undoes.refl (s : σ) : Undoes revert s [] s :=
  rfl

theorem Undoes.trans {s s' s'' : σ} {older newer : List ε}
    (first : Undoes revert s older s') (second : Undoes revert s' newer s'') :
    Undoes revert s (older ++ newer) s'' := by
  unfold Undoes at *
  rw [revertAll_append, second, first]

end Journal
