/-
The run loop of the web app: a run in chunks, with a yield between them.  What the wasm
module and the clock answer during one turn is given from outside, so any module is allowed
for, one that throws included.
-/
import Mathlib

namespace Playground

namespace Worker

/-- Something a call into the wasm module threw. -/
structure Thrown where
  trap : Bool
  message : String
deriving DecidableEq, Repr

def includes (text part : String) : Bool :=
  text.toList.tails.any fun rest => part.toList.isPrefixOf rest

/-- Whether an error leaves the wasm instance unusable. -/
def isDeadInstance (e : Thrown) : Bool :=
  e.trap || includes e.message "recursive use of an object" ||
    includes e.message "already borrowed" ||
    includes e.message "null pointer passed to rust" ||
    includes e.message "unreachable executed"

/-- Instructions one chunk runs before the loop comes up for air. -/
def chunkSteps : Nat := 10000

/-- Milliseconds between the snapshots of a run. -/
def heartbeatIntervalMs : Nat := 50

def noProgressError : String :=
  "the emulator made no progress and was stopped. this is a playground bug: press " ++
  "'diagnostic bundle', copy the report, and open an issue with it"

/-- What a run, or one chunk of it, reports. -/
structure RunResult where
  pc : Nat
  halted : Bool
  stepsExecuted : Nat
  hitBreakpoint : Bool
  error : Option String
  errorLine : Option Nat
  stepLimitReached : Bool
  cancelled : Bool
  sleepMs : Option Nat
  reached : Bool
  badReturn : Bool
deriving DecidableEq, Repr

namespace RunResult

def initial : RunResult := ⟨0, false, 0, false, none, none, false, false, none, false, false⟩

/-- An error that is not the empty string. -/
def errored (r : RunResult) : Bool := r.error.any fun message => message ≠ ""

end RunResult

/-- What the module and the clock answer during one turn. -/
structure Turn where
  /-- A call that carries out a request other than a run. -/
  call : Except Thrown Unit
  chunk : Except Thrown RunResult
  blocked : Except Thrown Bool
  snapshot : Except Thrown Unit
  startedAt : Nat
  now : Nat

/-- A run under way. -/
structure RunLoop where
  id : Nat
  maxSteps : Nat
  epoch : Nat
  totalSteps : Nat
  lastHeartbeat : Nat
  result : RunResult
deriving DecidableEq, Repr

/-- How a turn of the loop leaves it. -/
inductive Next
  | yields (loop : RunLoop) (heartbeat : Bool)
  | ends (loop : RunLoop)
  | throws (e : Thrown)

namespace RunLoop

def afterChunk (loop : RunLoop) (turn : Turn) (chunk : RunResult) : Next :=
  let loop := { loop with totalSteps := loop.totalSteps + chunk.stepsExecuted, result := chunk }
  if chunk.errored || chunk.halted || chunk.hitBreakpoint || chunk.reached || chunk.badReturn then
    .ends loop
  else if chunk.sleepMs.isSome then .ends loop
  else
    match turn.blocked with
    | .error e => .throws e
    | .ok true => .ends loop
    | .ok false =>
        if chunk.stepsExecuted = 0 then
          .ends { loop with result := { chunk with error := some noProgressError } }
        else if loop.lastHeartbeat + heartbeatIntervalMs ≤ turn.now then
          match turn.snapshot with
          | .error e => .throws e
          | .ok () => .yields { loop with lastHeartbeat := turn.now } true
        else .yields loop false

/-- The budget alone stopped the run. -/
def stepLimitReached (loop : RunLoop) (pauseRequested : Bool) (blocked : Except Thrown Bool) :
    Except Thrown Bool :=
  let r := loop.result
  if loop.maxSteps ≤ loop.totalSteps && !pauseRequested && !r.halted && !r.hitBreakpoint &&
      !r.reached && !r.badReturn && !r.errored && r.sleepMs.isNone then
    blocked.map (!·)
  else .ok false

def finalResult (loop : RunLoop) (pauseRequested : Bool) (blocked : Except Thrown Bool) :
    Except Thrown RunResult := do
  let stepLimitReached ← loop.stepLimitReached pauseRequested blocked
  return { loop.result with
    stepsExecuted := loop.totalSteps, stepLimitReached := stepLimitReached }

/-- A run whose machine was replaced. -/
def cancel (loop : RunLoop) : RunLoop :=
  { loop with result := { loop.result with cancelled := true } }

theorem cancelled_finalResult {loop : RunLoop} {pauseRequested : Bool}
    {blocked : Except Thrown Bool} {result : RunResult}
    (h : loop.cancel.finalResult pauseRequested blocked = .ok result) :
    result.cancelled = true := by
  unfold finalResult at h
  rcases hlimit : loop.cancel.stepLimitReached pauseRequested blocked with e | limit
  · rw [hlimit] at h
    cases h
  · rw [hlimit] at h
    cases h
    rfl

/-- Reading whether the machine is blocked is all that can fail at the end of a run. -/
theorem finalResult_isOk (loop : RunLoop) (pauseRequested : Bool) {blocked : Except Thrown Bool}
    (h : blocked.isOk = true) : ∃ result, loop.finalResult pauseRequested blocked = .ok result := by
  unfold finalResult stepLimitReached
  rcases blocked with e | b
  · cases h
  · simp only
    split
    · exact ⟨_, rfl⟩
    · exact ⟨_, rfl⟩

/-- A turn that yields has run at least one instruction of the same run. -/
theorem afterChunk_yields {loop next : RunLoop} {turn : Turn} {chunk : RunResult}
    {heartbeat : Bool} (h : loop.afterChunk turn chunk = .yields next heartbeat) :
    next.id = loop.id ∧ next.maxSteps = loop.maxSteps ∧ next.epoch = loop.epoch ∧
      loop.totalSteps < next.totalSteps := by
  unfold afterChunk at h
  simp only at h
  split at h
  · cases h
  · split at h
    · cases h
    · split at h
      · cases h
      · cases h
      · split at h
        · cases h
        · rename_i hsteps
          split at h
          · split at h
            · cases h
            · cases h
              refine ⟨rfl, rfl, rfl, ?_⟩
              dsimp only
              omega
          · cases h
            refine ⟨rfl, rfl, rfl, ?_⟩
            dsimp only
            omega

theorem afterChunk_ends {loop next : RunLoop} {turn : Turn} {chunk : RunResult}
    (h : loop.afterChunk turn chunk = .ends next) : next.id = loop.id := by
  unfold afterChunk at h
  simp only at h
  split at h
  · cases h
    rfl
  · split at h
    · cases h
      rfl
    · split at h
      · cases h
      · cases h
        rfl
      · split at h
        · cases h
          rfl
        · split at h
          · split at h <;> cases h
          · cases h

end RunLoop

end Worker

end Playground
