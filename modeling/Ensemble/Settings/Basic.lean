import Ensemble.Json.Record
import Ensemble.Workflow.Spec

/-!
Settings of the engine and their JSON form.
-/

namespace Ensemble

open Json (Tree Fields)

namespace Settings

structure Engine where
  -- The worker count of a parallel workflow that gives none.
  defaultMaxWorkers : UInt32 := Workflow.defaultMaxWorkers
  -- How many events the live feed of a run keeps.
  eventCapacity : UInt64 := 256
  -- Whether agents are asked for deltas or for whole answers.
  streaming : Bool := true
  logLevel : String := "info"
  deriving DecidableEq

structure LoopStop where
  toolName : String := "exit_loop"
  textMarker : Option String := none
  deriving DecidableEq

end Settings

structure Settings where
  engine : Settings.Engine := {}
  loopStop : Settings.LoopStop := {}
  deriving DecidableEq

namespace Settings

def Engine.toJson (e : Engine) : Json :=
  .object [("default_max_workers", .nat e.defaultMaxWorkers.toNat),
    ("event_capacity", .nat e.eventCapacity.toNat), ("log_level", .string e.logLevel),
    ("streaming", .bool e.streaming)]

def Engine.ofTree? (t : Tree) : Option Engine := do
  let fields ←
    Fields.ofTree? ["default_max_workers", "event_capacity", "streaming", "log_level"] t
  let defaultMaxWorkers ←
    fields.withDefault "default_max_workers" Workflow.defaultMaxWorkers Tree.uint32?
  let eventCapacity ← fields.withDefault "event_capacity" 256 Tree.uint64?
  let streaming ← fields.withDefault "streaming" true Tree.bool?
  let logLevel ← fields.withDefault "log_level" "info" Tree.string?
  return { defaultMaxWorkers, eventCapacity, streaming, logLevel }

def LoopStop.toJson (s : LoopStop) : Json :=
  .object [("text_marker", Json.ofOption .string s.textMarker), ("tool_name", .string s.toolName)]

def LoopStop.ofTree? (t : Tree) : Option LoopStop := do
  let fields ← Fields.ofTree? ["tool_name", "text_marker"] t
  let toolName ← fields.withDefault "tool_name" "exit_loop" Tree.string?
  let textMarker ← fields.withDefault "text_marker" none (Tree.nullable Tree.string?)
  return { toolName, textMarker }

def toJson (s : Settings) : Json :=
  .object [("engine", s.engine.toJson), ("loop_stop", s.loopStop.toJson)]

def ofTree? (t : Tree) : Option Settings := do
  let fields ← Fields.ofTree? ["engine", "loop_stop"] t
  let engine ← fields.withDefault "engine" {} Engine.ofTree?
  let loopStop ← fields.withDefault "loop_stop" {} LoopStop.ofTree?
  return { engine, loopStop }

/-- The log filter of a level, for every part of the program. -/
def logFilter (level : String) : String :=
  ",".intercalate (["conductor", "conductor_core", "conductor_engine", "conductor_cli"].map
    fun part => part ++ "=" ++ level)

end Settings

end Ensemble
