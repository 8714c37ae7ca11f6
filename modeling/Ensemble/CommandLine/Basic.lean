import Ensemble.CommandLine.Arguments
import Ensemble.CommandLine.Watching
import Ensemble.Disk.Settings
import Ensemble.Disk.Transcripts
import Ensemble.Json.Writer

/-!
The command line: which command the arguments ask for, where its files lie, and what it prints.
-/

namespace Ensemble.CommandLine

structure Place where
  -- All files and folders, from the root down.
  disk : Disk
  -- The absolute path of the working directory.
  directory : String
  env : String → Option String

namespace Place

/-- A path as it is seen from the root. -/
def absolute (p : Place) (path : String) : String :=
  if path.startsWith "/" then path else Disk.join p.directory path

/-- What is at a path; the empty path leads nowhere. -/
def find (p : Place) (path : String) : Except Disk.Fault Disk :=
  if path.isEmpty then .error .missing else p.disk.at? (p.absolute path)

def readText (p : Place) (path : String) : Except Disk.Fault String :=
  match p.find path with
  | .error fault => .error fault
  | .ok d => d.text

/-- The folder of the user's settings, if the environment tells it. -/
def userSettingsFolder? (p : Place) : Option String :=
  match (p.env "XDG_CONFIG_HOME").filter fun d => d.startsWith "/" with
  | some d => some d
  | none => ((p.env "HOME").filter fun d => !d.isEmpty).map fun home => Disk.join home ".config"

/-- The paths of the settings files, the user's before the project's. -/
def settingsPaths (p : Place) : List String :=
  (p.userSettingsFolder?.map fun d => Disk.join d "conductor/settings.json").toList ++
    [Disk.join p.directory ".conductor/settings.json"]

def settingsFiles (p : Place) : List Settings.File :=
  p.settingsPaths.map fun path => ⟨path, .ofFound (p.find path)⟩

end Place

def Command.paths : Command → List String
  | .run workflow _ transcripts _ => [workflow, transcripts]
  | .validate workflow => [workflow]

/-- The paths that a request reads, as they are seen from the root. -/
def Request.paths (p : Place) : Request → List String
  | .command c _ => (p.settingsPaths ++ c.paths).map p.absolute
  | _ => []

inductive Result where
  | version
  | help
  | misuse
  -- An error and its causes.
  | failed (chain : List String)
  | validated (spec : Workflow.Spec)
  | finished (run : Run) (printed : List RunEvent)

def loadDefinition (p : Place) (path : String) : Except (List String) Workflow.Definition :=
  match p.readText path with
  | .error cause => .error ["Failed to read workflow file " ++ path, cause.message]
  | .ok content =>
    match (Json.Tree.ofText? content).bind Workflow.Definition.ofTree? with
    | some d => .ok d
    | none => .error ["Failed to parse workflow file " ++ path, Json.faultText]

def Run.Fault.chain : Ensemble.Run.Fault → List String
  | .invalid f => [(Ensemble.Run.Fault.invalid f).message, f.message]
  | fault => [fault.message]

/-- The engine of a command: the arguments may ask for whole answers whatever the settings say. -/
def engineFor (registry : Registry) (s : Settings) (wholeAnswers : Bool) : Engine :=
  let engine := Engine.ofSettings registry s
  if wholeAnswers then { engine with stream := false } else engine

def runCommand (p : Place) (s : Settings) (workflow task transcripts : String)
    (wholeAnswers : Bool) : Result :=
  match loadDefinition p workflow with
  | .error chain => .failed chain
  | .ok definition =>
    match Disk.loadRegistry transcripts (p.find transcripts) with
    | .error fault => .failed fault.chain
    | .ok registry =>
      let engine := engineFor registry s wholeAnswers
      match engine.run definition task none with
      | .error fault => .failed (Run.Fault.chain fault)
      | .ok r =>
        .finished r (printedEvents [.status r.status] (pollsOf (feedAfter engine r)) r)

def validateCommand (p : Place) (s : Settings) (workflow : String) : Result :=
  match loadDefinition p workflow with
  | .error chain => .failed chain
  | .ok definition =>
    match definition.validate s.engine.defaultMaxWorkers with
    | .error fault => .failed [fault.message]
    | .ok spec => .validated spec

/-- Carries out a command with the settings that are found. -/
def execute (p : Place) (c : Command) : Result :=
  match Settings.resolve p.settingsFiles p.env with
  | .error fault => .failed [fault.message]
  | .ok s =>
    match c with
    | .run workflow task transcripts wholeAnswers =>
      runCommand p s workflow task transcripts wholeAnswers
    | .validate workflow => validateCommand p s workflow

def Place.answer (p : Place) : Request → Result
  | .version => .version
  | .help => .help
  | .misuse => .misuse
  | .command c _ => execute p c

namespace Result

def exitCode : Result → Nat
  | .version => 0
  | .help => 0
  | .misuse => 2
  | .failed _ => 1
  | .validated _ => 0
  | .finished r _ => if r.status = .succeeded then 0 else 1

def versionText : String := "conductor 0.1.0-alpha.1"

def usage : List String :=
  ["Usage: conductor [OPTIONS] run --task <TASK> --transcripts <DIR> [--no-stream] <WORKFLOW>",
    "       conductor [OPTIONS] validate <WORKFLOW>"]

def output : Result → List String
  | .version => [versionText]
  | .help => usage
  | .misuse => []
  | .failed _ => []
  | .validated spec => [spec.toJson.toIndentedText]
  | .finished r printed => (printed.map fun e => e.toJson.toText) ++ [r.summary.toText]

/-- The lines on the standard error output: an error and, below it, its causes. -/
def complaints : Result → List String
  | .misuse => usage
  | .failed [] => []
  | .failed (message :: causes) =>
    ("Error: " ++ message) ::
      (if causes.isEmpty then [] else "" :: "Caused by:" :: causes.map fun c => "    " ++ c)
  | _ => []

end Result

end Ensemble.CommandLine
