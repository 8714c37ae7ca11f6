import Ensemble.Ordered
import Ensemble.Text.Line

/-!
Files and folders, and what is found at a path.  What can be listed is listed as a whole.
-/

namespace Ensemble

inductive Disk where
  | file (bytes : ByteArray)
  | folder (entries : List (String × Disk))
  -- A file or a folder that the system refuses to read, and what it says then.
  | unreadable (isFolder : Bool) (reason : String)

namespace Disk

inductive Fault where
  | missing
  | notFolder
  | isFolder
  | notText
  | refused (reason : String)
  deriving DecidableEq

def Fault.message : Fault → String
  | .missing => "No such file or directory (os error 2)"
  | .notFolder => "Not a directory (os error 20)"
  | .isFolder => "Is a directory (os error 21)"
  | .notText => "stream did not contain valid UTF-8"
  | .refused reason => reason

def isFolder : Disk → Bool
  | .file _ => false
  | .folder _ => true
  | .unreadable isFolder _ => isFolder

def text : Disk → Except Fault String
  | .folder _ => .error .isFolder
  | .unreadable _ reason => .error (.refused reason)
  | .file bytes =>
    match String.fromUTF8? bytes with
    | some s => .ok s
    | none => .error .notText

def entries : Disk → Except Fault (List (String × Disk))
  | .folder entries => .ok entries
  | .unreadable true reason => .error (.refused reason)
  | _ => .error .notFolder

/-- Puts something at a path below; folders on the way are made.  An empty folder leaves a folder
that is there already as it is. -/
def put (d : Disk) (path : List String) (leaf : Disk) : Disk :=
  match path with
  | [] =>
    match d, leaf with
    | .folder entries, .folder [] => .folder entries
    | _, leaf => leaf
  | name :: rest =>
    let entries := match d with
      | .folder entries => entries
      | _ => []
    .folder (Ordered.alter name (fun old => put (old.getD (.folder [])) rest leaf) entries)

/-- Follows names from a folder with the folders above it, the nearest first.  An empty name or a
point stays where it is, and two points lead to the folder above; nothing is above the root. -/
def walk (above : List Disk) (d : Disk) : List String → Except Fault Disk
  | [] => .ok d
  | name :: rest =>
    match d.entries with
    | .error fault => .error fault
    | .ok entries =>
      if name.isEmpty || name = "." then walk above d rest
      else if name = ".." then walk (above.drop 1) (above.head?.getD d) rest
      else
        match Ordered.get? name entries with
        | some below => walk (d :: above) below rest
        | none => .error .missing

/-- The names in a path, which are separated by slashes. -/
def names (path : String) : List String :=
  (Text.pieces '/' path.toList).map String.ofList

def at? (d : Disk) (path : String) : Except Fault Disk :=
  d.walk [] (names path)

def join (path name : String) : String :=
  if path.isEmpty || path.endsWith "/" then path ++ name else path ++ "/" ++ name

/-- A file name cut at its last point, unless it has none or begins with its only one. -/
def splitName (name : List Char) : List Char × Option (List Char) :=
  let reversed := name.reverse
  let extension := (reversed.takeWhile (· ≠ '.')).reverse
  match (reversed.dropWhile (· ≠ '.')).drop 1 with
  | [] => (name, none)
  | stem => (stem.reverse, some extension)

end Disk

end Ensemble
