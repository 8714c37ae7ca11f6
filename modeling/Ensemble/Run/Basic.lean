import Ensemble.Run.Fleet
import Ensemble.Settings.Basic
import Ensemble.Workflow.Spec

/-!
Runs of workflows.  An engine checks a definition and executes it for a task; whatever its agents
do, the run ends with a record, unless it waits for ever or a crash takes the run itself down.
-/

namespace Ensemble

structure Engine where
  registry : Registry
  stream : Bool := true
  defaultMaxWorkers : UInt32 := Workflow.defaultMaxWorkers
  -- How many events the live feed of a run has room for.
  eventCapacity : Nat := 256
  stop : StopRule := .default

structure Run where
  id : String
  spec : Workflow.Spec
  task : String
  outcome : Run.Outcome
  deriving DecidableEq

namespace Run

inductive Fault where
  | invalid (f : Workflow.Fault)
  | aborted
  | hang
  deriving DecidableEq

def Fault.message : Fault → String
  | .invalid f => "Invalid workflow: " ++ f.message
  | .aborted => "Workflow run task aborted"
  | .hang => "Workflow run waits for ever"

def ofSpec (engine : Engine) (ctx : Context) (spec : Workflow.Spec) : Ending :=
  match spec.composition with
  | .sequential => shared ctx engine.registry engine.stop none spec.subAgents
  | .loop n => shared ctx engine.registry engine.stop (some n) spec.subAgents
  | .parallel workers => sideBySide ctx engine.registry workers spec.subAgents

/-- The record of a run whose end is seen. -/
def record (spec : Workflow.Spec) (task : String) (signals : Signals) : Ending → Except Fault Run
  | .finished o =>
    if signals.seesEnd o.tick then .ok { id := "run-1", spec, task, outcome := o }
    else .error .hang
  | .aborted tick => .error (if signals.seesEnd tick then .aborted else .hang)
  | .hang => .error .hang

/-- The signals of a run: its timeout is counted from its start. -/
def signals (spec : Workflow.Spec) (cancelAt : Option Nat) : Signals :=
  { cancelAt, deadline := spec.timeout.map Duration.nanos }

def status (r : Run) : Status :=
  r.outcome.status

def invocationsWith (r : Run) (s : Status) : List Invocation :=
  r.outcome.invocations.filter fun i => i.status = s

/-- The status that a run shows at a tick, before anything happens at that tick. -/
def statusAt (r : Run) (tick : Nat) : Status :=
  if tick = 0 then .pending
  else if r.outcome.tick < tick then r.status
  else .running

def timeJson (tick : Nat) : Json :=
  .string (Timestamp.ofTick tick).write

def deadlineJson (spec : Workflow.Spec) : Json :=
  Json.ofOption (fun d : Duration =>
    .string (Timestamp.mk (d.nanos / 1000000000 : Nat) (d.nanos % 1000000000)).write) spec.timeout

def toJson (r : Run) : Json :=
  .object [("deadline", deadlineJson r.spec), ("finished_at", timeJson r.outcome.tick),
    ("id", .string r.id), ("invocations", .array (r.outcome.invocations.map Invocation.toJson)),
    ("sessions", .array (r.outcome.sessions.map Session.toJson)), ("spec", r.spec.toJson),
    ("started_at", timeJson 0), ("status", r.status.toJson), ("task", .string r.task)]

/-- The length of a session instead of its events. -/
def sessionSummary (s : Session) : Json :=
  .object [("events", .nat s.length), ("id", .string s.id)]

def summary (r : Run) : Json :=
  .object [("composition", .string r.spec.composition.name),
    ("finished_at", timeJson r.outcome.tick),
    ("invocations", .array (r.outcome.invocations.map Invocation.toJson)),
    ("run_id", .string r.id), ("sessions", .array (r.outcome.sessions.map sessionSummary)),
    ("started_at", timeJson 0), ("status", r.status.toJson)]

end Run

namespace Engine

def ofSettings (registry : Registry) (s : Settings) : Engine :=
  { registry
    stream := s.engine.streaming
    defaultMaxWorkers := s.engine.defaultMaxWorkers
    eventCapacity := max s.engine.eventCapacity.toNat 1
    stop := .ofSettings s.loopStop }

/-- Runs a definition for a task; cancellation may be requested at a tick. -/
def run (e : Engine) (d : Workflow.Definition) (task : String) (cancelAt : Option Nat) :
    Except Run.Fault Run :=
  match d.validate e.defaultMaxWorkers with
  | .error f => .error (.invalid f)
  | .ok spec =>
    let ctx : Run.Context := { task, stream := e.stream, signals := Run.signals spec cancelAt }
    Run.record spec task ctx.signals (Run.ofSpec e ctx spec)

end Engine

end Ensemble
