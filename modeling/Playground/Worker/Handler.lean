/-
The message handler of the emulator worker.  A handler runs until it waits: for the wasm
module, or at the yield of its run loop.  What is ready to go on is a microtask, and no
message is taken while one is left.
-/
import Playground.Worker.RunLoop

namespace Playground

namespace Worker

inductive RequestKind
  | init
  | assemble
  | step
  | stepBack
  | runUntilBreak (maxSteps : Nat)
  | pause
  | reset
  | pushStdin
  | closeStdin
  | setSnapshotsPaused
  | takeStdout
  | takeStderr
  | getMemory
  | isRangeMapped
  | getSnapshot
  | setBreakpoint
  | clearBreakpoint
  | clearAllBreakpoints
  | saveState
  | loadState
  | deleteState
  | listStates
  | uploadVfsFile
  | listVfsFiles
  | readVfsFile
  | deleteVfsFile
  | resolveLabel
  | m4Expand
  | lint
  | clearConsole
  | codeBase
  | lineMap
  | memoryMap
  | frameLayout
deriving DecidableEq, Repr

namespace RequestKind

/-- The operations that replace the machine. -/
def replaces : RequestKind → Bool
  | .assemble | .stepBack | .reset | .loadState => true
  | _ => false

def isRun : RequestKind → Bool
  | .runUntilBreak _ => true
  | _ => false

end RequestKind

structure Request where
  id : Nat
  kind : RequestKind
deriving DecidableEq, Repr

inductive Reply
  | ok
  | run (result : RunResult)
  | error (message : String)
deriving DecidableEq, Repr

inductive WorkerMessage
  | reply (id : Nat) (reply : Reply)
  | heartbeat
deriving DecidableEq, Repr

/-- What happened, for the record. -/
inductive Event
  | received (req : Request)
  | carriedOut (id : Nat)
  | began (id : Nat)
  | chunk (id steps : Nat)
  | woke (id : Nat)
  | ended (id : Nat)
  | replied (id : Nat) (reply : Reply)
deriving DecidableEq, Repr

/-- A handler that can go on. -/
inductive Task
  /-- The wait for the module is over, well or not. -/
  | go (req : Request) (loaded : Except Thrown Unit)
  /-- The run loop was left, with its result or with what it threw. -/
  | finish (id : Nat) (outcome : Except Thrown RunResult)

/-- A load of the wasm module, with the handlers that wait for it. -/
structure Load where
  number : Nat
  waiting : List Request

structure EmulatorWorker where
  /-- Whether there is an emulator. -/
  emulator : Bool
  /-- The load the next request waits for. -/
  wasmReady : Option Nat
  loads : Nat
  loading : List Load
  pauseRequested : Bool
  runEpoch : Nat
  ready : List Task
  yielding : List RunLoop
  outbox : List WorkerMessage
  log : List Event

def notInitialized : Thrown :=
  ⟨false, "emulator not initialized; send `init` first"⟩

namespace EmulatorWorker

def new : EmulatorWorker := ⟨false, none, 0, [], false, 0, [], [], [], []⟩

variable (w : EmulatorWorker)

def note (e : Event) : EmulatorWorker := { w with log := w.log ++ [e] }

def answer (id : Nat) (reply : Reply) : EmulatorWorker :=
  { w with outbox := w.outbox ++ [.reply id reply], log := w.log ++ [.replied id reply] }

/-- What the handler does with an error. -/
def fail (id : Nat) (e : Thrown) : EmulatorWorker :=
  (if isDeadInstance e then { w with emulator := false, wasmReady := none } else w).answer id
    (.error e.message)

def answerSnapshot (id : Nat) (reply : Reply) (snapshot : Except Thrown Unit) : EmulatorWorker :=
  match snapshot with
  | .ok () => w.answer id reply
  | .error e => w.fail id e

/-- Wait for the module, and start to load it if nobody has. -/
def ensureWasm (req : Request) : EmulatorWorker :=
  match w.wasmReady with
  | some n =>
      if w.loading.any fun load => load.number = n then
        { w with
          loading := w.loading.map fun load =>
            if load.number = n then { load with waiting := load.waiting ++ [req] } else load }
      else { w with ready := w.ready ++ [.go req (.ok ())] }
  | none =>
      { w with
        loads := w.loads + 1
        wasmReady := some w.loads
        loading := w.loading ++ [⟨w.loads, [req]⟩] }

def onMessage (req : Request) (turn : Turn) : EmulatorWorker :=
  let w := w.note (.received req)
  match req.kind with
  | .init | .getSnapshot => w.answerSnapshot req.id .ok turn.snapshot
  | .pause => { w with pauseRequested := true }.answer req.id .ok
  | kind =>
      if kind.replaces then { w with runEpoch := w.runEpoch + 1 }.ensureWasm req
      else w.ensureWasm req

/-- A load of the module is over. -/
def settle (load : Load) (outcome : Except Thrown Unit) : EmulatorWorker :=
  let w := { w with
    loading := w.loading.filter fun other => other.number ≠ load.number
    ready := w.ready ++ load.waiting.map fun req => Task.go req outcome }
  match outcome with
  | .ok () => { w with emulator := true }
  | .error _ => { w with wasmReady := none }

/-- The run loop is left, and the handler that awaits it can go on. -/
def leaveLoop (id : Nat) (outcome : Except Thrown RunResult) : EmulatorWorker :=
  { w.note (.ended id) with ready := w.ready ++ [.finish id outcome] }

/-- At the end of the run loop its result is put together. -/
def endLoop (loop : RunLoop) (turn : Turn) : EmulatorWorker :=
  w.leaveLoop loop.id (loop.finalResult w.pauseRequested turn.blocked)

/-- The head of the run loop. -/
def turnLoop (loop : RunLoop) (turn : Turn) : EmulatorWorker :=
  if loop.totalSteps < loop.maxSteps then
    let w := w.note (.chunk loop.id (min chunkSteps (loop.maxSteps - loop.totalSteps)))
    match turn.chunk with
    | .error e => w.leaveLoop loop.id (.error e)
    | .ok chunk =>
        match loop.afterChunk turn chunk with
        | .throws e => w.leaveLoop loop.id (.error e)
        | .ends loop => w.endLoop loop turn
        | .yields loop heartbeat =>
            { w with
              yielding := w.yielding ++ [loop]
              outbox := if heartbeat then w.outbox ++ [.heartbeat] else w.outbox }
  else w.endLoop loop turn

/-- A handler goes on after its wait for the module. -/
def proceed (req : Request) (turn : Turn) : EmulatorWorker :=
  if w.emulator = false ∧ req.kind ≠ .memoryMap then w.fail req.id notInitialized
  else
    match req.kind with
    | .runUntilBreak maxSteps =>
        { w with pauseRequested := false }.note (.began req.id) |>.turnLoop
          ⟨req.id, maxSteps, w.runEpoch, 0, turn.startedAt, .initial⟩ turn
    | _ =>
        match turn.call with
        | .error e => w.fail req.id e
        | .ok () => (w.note (.carriedOut req.id)).answerSnapshot req.id .ok turn.snapshot

/-- The next handler that can go on does. -/
def resume (task : Task) (turn : Turn) : EmulatorWorker :=
  match task with
  | .go req (.ok ()) => w.proceed req turn
  | .go req (.error e) => w.fail req.id e
  | .finish id (.ok result) => w.answerSnapshot id (.run result) turn.snapshot
  | .finish id (.error e) => w.fail id e

/-- A run comes back from its yield. -/
def wake (loop : RunLoop) (turn : Turn) : EmulatorWorker :=
  let w := w.note (.woke loop.id)
  if loop.epoch ≠ w.runEpoch then w.endLoop loop.cancel turn
  else if w.pauseRequested then w.endLoop loop turn
  else w.turnLoop loop turn

/-- The requests that wait for the module. -/
def waiting : List Request := w.loading.flatMap Load.waiting

end EmulatorWorker

/-- The client and the worker, with the messages between them. -/
structure System where
  nextId : Nat
  /-- The requests whose promises are open. -/
  pending : List Nat
  /-- The promises that were resolved or rejected. -/
  settled : List (Nat × Reply)
  inbox : List Request
  worker : EmulatorWorker

inductive Label
  | send (kind : RequestKind)
  | receive (turn : Turn)
  | settle (number : Nat) (outcome : Except Thrown Unit)
  | resume (turn : Turn)
  | wake (turn : Turn)
  | deliver
  | workerError (message : String)

namespace System

def start : System := ⟨1, [], [], [], .new⟩

variable (s : System)

/-- The client sends a request under the next id. -/
def send (kind : RequestKind) : System :=
  { s with
    nextId := s.nextId + 1
    pending := s.pending ++ [s.nextId]
    inbox := s.inbox ++ [⟨s.nextId, kind⟩] }

/-- The client takes a message: an answer settles its promise if it is open. -/
def onWorkerMessage : WorkerMessage → System
  | .heartbeat => s
  | .reply id reply =>
      if id ∈ s.pending then
        { s with pending := s.pending.erase id, settled := s.settled ++ [(id, reply)] }
      else s

/-- A failure of the worker itself rejects every open promise. -/
def onWorkerError (message : String) : System :=
  { s with
    pending := []
    settled := s.settled ++ s.pending.map fun id => (id, .error message) }

def step (s : System) : Label → Option System
  | .send kind => some (s.send kind)
  | .receive turn =>
      match s.worker.ready, s.inbox with
      | [], req :: inbox => some { s with inbox := inbox, worker := s.worker.onMessage req turn }
      | _, _ => none
  | .settle number outcome =>
      match s.worker.loading.find? fun load => load.number = number with
      | some load => some { s with worker := s.worker.settle load outcome }
      | none => none
  | .resume turn =>
      match s.worker.ready with
      | task :: ready =>
          some { s with worker := { s.worker with ready := ready }.resume task turn }
      | [] => none
  | .wake turn =>
      match s.worker.ready, s.worker.yielding with
      | [], loop :: yielding =>
          some { s with worker := { s.worker with yielding := yielding }.wake loop turn }
      | _, _ => none
  | .deliver =>
      match s.worker.outbox with
      | message :: outbox =>
          some ({ s with worker := { s.worker with outbox := outbox } }.onWorkerMessage message)
      | [] => none
  | .workerError message => some (s.onWorkerError message)

end System

end Worker

end Playground
