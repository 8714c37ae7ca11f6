import Ensemble.Json.Record

/-!
The life of an invocation or a run: it is pending, then running, and ends in one of four final
statuses.
-/

namespace Ensemble

inductive Status where
  | pending
  | running
  | succeeded
  | failed
  | timedOut
  | cancelled
  deriving DecidableEq

namespace Status

def isTerminal : Status → Bool
  | .pending => false
  | .running => false
  | _ => true

def name : Status → String
  | .pending => "pending"
  | .running => "running"
  | .succeeded => "succeeded"
  | .failed => "failed"
  | .timedOut => "timed_out"
  | .cancelled => "cancelled"

def all : List Status :=
  [.pending, .running, .succeeded, .failed, .timedOut, .cancelled]

def toJson (s : Status) : Json := .string s.name

def ofTree? (buffered : Bool) (t : Json.Tree) : Option Status :=
  t.variant? buffered (all.map fun s => (s.name, s))

end Status

end Ensemble
