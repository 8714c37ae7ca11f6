import Ensemble.Json.Merge
import Ensemble.Json.Reader
import Ensemble.Settings.Basic
import Ensemble.Text.Digits

/-!
Where settings come from: the built-in ones, then the settings file of the user, then that of the
project, then the environment.  A layer overrides only what it contains.
-/

namespace Ensemble.Settings

inductive Source where
  | missing
  | unreadable (reason : String)
  | text (content : String)
  deriving DecidableEq

structure File where
  path : String
  source : Source
  deriving DecidableEq

inductive Fault where
  | unreadable (path reason : String)
  | notJson (path : String)
  | invalid
  deriving DecidableEq

def Fault.message (f : Fault) : String :=
  "Configuration error: " ++
    match f with
    | .unreadable path reason => "Failed to read config file " ++ path ++ ": " ++ reason
    | .notJson path => "Failed to parse config file " ++ path ++ ": " ++ Json.faultText
    | .invalid => "Invalid merged config: " ++ Json.faultText

/-- The value of a settings file, if the file exists. -/
def File.read (f : File) : Except Fault (Option Json) :=
  match f.source with
  | .missing => .ok none
  | .unreadable reason => .error (.unreadable f.path reason)
  | .text content =>
    match Json.ofText? content with
    | some j => .ok (some j)
    | none => .error (.notJson f.path)

/-- Lays the files over a value, the first one first. -/
def layFiles (base : Json) : List File → Except Fault Json
  | [] => .ok base
  | f :: rest =>
    match f.read with
    | .error fault => .error fault
    | .ok none => layFiles base rest
    | .ok (some overlay) => layFiles (base.merge overlay) rest

def readBool? : String → Option Bool
  | "true" => some true
  | "false" => some false
  | _ => none

/-- Overrides settings by variables of the environment; a value that does not parse is ignored. -/
def override (env : String → Option String) (s : Settings) : Settings :=
  let workers := (env "CONDUCTOR_DEFAULT_MAX_WORKERS").bind (Text.unsignedBelow? UInt32.size)
  let capacity := (env "CONDUCTOR_EVENT_CAPACITY").bind (Text.unsignedBelow? UInt64.size)
  { engine :=
      { defaultMaxWorkers := (workers.map UInt32.ofNat).getD s.engine.defaultMaxWorkers
        eventCapacity := (capacity.map UInt64.ofNat).getD s.engine.eventCapacity
        streaming := ((env "CONDUCTOR_STREAMING").bind readBool?).getD s.engine.streaming
        logLevel := (env "CONDUCTOR_LOG_LEVEL").getD s.engine.logLevel }
    loopStop :=
      { toolName := (env "CONDUCTOR_LOOP_STOP_TOOL").getD s.loopStop.toolName
        textMarker := s.loopStop.textMarker } }

def resolve (files : List File) (env : String → Option String) : Except Fault Settings :=
  match layFiles ({} : Settings).toJson files with
  | .error fault => .error fault
  | .ok merged =>
    match ofTree? (.ofJson merged) with
    | some s => .ok (s.override env)
    | none => .error .invalid

end Ensemble.Settings
