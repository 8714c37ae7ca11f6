import Ensemble.Delta.Reader
import Ensemble.Text.Blank
import Ensemble.Text.Line

/-!
Transcripts: documents with one delta on each line.  A line may be framed by blanks and a `data:`
mark; blank lines and the closing sentinel carry no delta, but they are counted.
-/

namespace Ensemble.Transcript

open Ensemble.Text

/-- The first line that holds no delta, counted from 1, and why. -/
structure Fault where
  line : Nat
  cause : Delta.Fault
  deriving DecidableEq

def Fault.message (f : Fault) : String :=
  "Failed to parse delta: line " ++ toString f.line ++ ": " ++ f.cause.message

def sentinel : List Char := ['[', 'D', 'O', 'N', 'E', ']']

def dataMark : List Char := ['d', 'a', 't', 'a', ':']

def payload (line : String) : List Char :=
  let trimmed := trimChars line.toList
  if dataMark.isPrefixOf trimmed then dropBlanks (trimmed.drop dataMark.length) else trimmed

def payload? (line : String) : Option String :=
  let inner := payload line
  if inner.isEmpty || inner == sentinel then none else some (String.ofList inner)

/-- Reads lines; the first one has the given number. -/
def readLines (number : Nat) : List String → Except Fault (List Delta)
  | [] => .ok []
  | line :: rest =>
    match payload? line with
    | none => readLines (number + 1) rest
    | some text =>
      match Delta.ofLine? text with
      | .error cause => .error ⟨number, cause⟩
      | .ok d =>
        match readLines (number + 1) rest with
        | .error fault => .error fault
        | .ok ds => .ok (d :: ds)

def read (document : String) : Except Fault (List Delta) :=
  readLines 1 (lines document)

end Ensemble.Transcript
