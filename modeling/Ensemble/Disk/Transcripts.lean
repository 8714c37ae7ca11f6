import Ensemble.Agent.Registry
import Ensemble.Disk.Basic

/-!
A folder of transcripts as a registry.  Every transcript is an agent that replays it: one that lies
directly in the folder is named by its file name, one in a folder below has the name of that folder
for its namespace, and whatever lies deeper is ignored.  A folder either cannot be listed at all or
is listed to its end: listings do not break off midway.
-/

namespace Ensemble.Disk

inductive LoadFault where
  | folder (path : String) (cause : Fault)
  | file (path : String) (cause : Fault)
  | transcript (path : String) (cause : Transcript.Fault)
  deriving DecidableEq

/-- What went wrong and what caused it. -/
def LoadFault.chain : LoadFault → List String
  | .folder path cause => ["Failed to read transcript directory " ++ path, cause.message]
  | .file path cause => ["Failed to read transcript " ++ path, cause.message]
  | .transcript path cause => ["Invalid transcript " ++ path, cause.message]

/-- The name of the agent that a file holds, if the file is a transcript. -/
def transcriptName? (fileName : String) : Option String :=
  match splitName fileName.toList with
  | (stem, some ['n', 'd', 'j', 's', 'o', 'n']) => some (String.ofList stem)
  | _ => none

def loadAgent (path : String) (d : Disk) : Except LoadFault Agent :=
  match d.text with
  | .error cause => .error (.file path cause)
  | .ok document =>
    match Replay.ofTranscript document with
    | .error cause => .error (.transcript path cause)
    | .ok r => .ok (.replay r)

/-- Enters a file of a folder into a registry. -/
def loadFile (path : String) (scope : Option String) (name : String) (d : Disk) (g : Registry) :
    Except LoadFault Registry :=
  match transcriptName? name with
  | none => .ok g
  | some agentName =>
    match loadAgent (join path name) d with
    | .error fault => .error fault
    | .ok a => .ok (g.registerIn scope agentName a)

/-- Enters the files of a folder below; its folders are left out. -/
def loadBelow (path scope : String) (g : Registry) :
    List (String × Disk) → Except LoadFault Registry
  | [] => .ok g
  | (name, d) :: rest =>
    if d.isFolder then loadBelow path scope g rest
    else
      match loadFile path (some scope) name d g with
      | .error fault => .error fault
      | .ok g => loadBelow path scope g rest

/-- Enters what lies directly in the folder: a file, or the files of a folder. -/
def loadEntry (path name : String) (d : Disk) (g : Registry) : Except LoadFault Registry :=
  if d.isFolder then
    match d.entries with
    | .error cause => .error (.folder (join path name) cause)
    | .ok below => loadBelow (join path name) name g below
  else loadFile path none name d g

def loadEntries (path : String) (g : Registry) :
    List (String × Disk) → Except LoadFault Registry
  | [] => .ok g
  | (name, d) :: rest =>
    match loadEntry path name d g with
    | .error fault => .error fault
    | .ok g => loadEntries path g rest

def loadRegistry (path : String) (found : Except Fault Disk) : Except LoadFault Registry :=
  match found with
  | .error cause => .error (.folder path cause)
  | .ok d =>
    match d.entries with
    | .error cause => .error (.folder path cause)
    | .ok es => loadEntries path {} es

end Ensemble.Disk
