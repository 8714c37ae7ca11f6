import Ensemble.CommandLine.Basic

/-!
The program: it reads what the arguments need from the real disk and prints what comes of them.
-/

namespace Ensemble.CommandLine

/-- How many folders deep a transcript may lie. -/
def loadDepth : Nat := 2

def refusal : IO.Error → String
  | .permissionDenied .. => "Permission denied (os error 13)"
  | e => e.toString

/-- What is on the real disk at a path, down to a depth of folders. -/
def loadDisk (depth : Nat) (path : String) : IO (Option Disk) := do
  let root ← IO.currentDir
  let found := root / path
  if ← found.isDir then
    match depth with
    | 0 => return some (.folder [])
    | depth + 1 =>
      try
        let mut entries := []
        for entry in ← found.readDir do
          if let some d ← loadDisk depth entry.path.toString then
            entries := Ordered.insert entry.fileName d entries
        return some (.folder entries)
      catch e => return some (.unreadable true (refusal e))
  else if ← found.pathExists then
    try return some (.file (← IO.FS.readBinFile found))
    catch e => return some (.unreadable false (refusal e))
  else return none

def loadPaths (paths : List String) : IO Disk := do
  let mut disk : Disk := .folder []
  for path in paths do
    if let some d ← loadDisk loadDepth path then
      disk := disk.put ((Disk.names path).filter fun name => !name.isEmpty) d
  return disk

def loadEnv (names : List String) : IO (List (String × String)) :=
  names.filterMapM fun name => do return (← IO.getEnv name).map fun value => (name, value)

def variableNames : List String :=
  ["HOME", "XDG_CONFIG_HOME", "CONDUCTOR_DEFAULT_MAX_WORKERS", "CONDUCTOR_EVENT_CAPACITY",
    "CONDUCTOR_STREAMING", "CONDUCTOR_LOG_LEVEL", "CONDUCTOR_LOOP_STOP_TOOL"]

end Ensemble.CommandLine

open Ensemble CommandLine in
def main (arguments : List String) : IO UInt32 := do
  let env ← loadEnv variableNames
  let place : Place :=
    { disk := .folder []
      directory := (← IO.currentDir).toString
      env := fun name => env.lookup name }
  let request := Request.ofArguments arguments
  let disk ← loadPaths (request.paths place)
  let result := { place with disk }.answer request
  for line in result.output do IO.println line
  for line in result.complaints do IO.eprintln line
  return UInt32.ofNat result.exitCode
