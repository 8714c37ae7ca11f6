import Ensemble.Clock
import Ensemble.Session.Basic
import Ensemble.Transcript

/-!
Agents: what a workflow calls.  An agent replays a script of deltas on every call, or crashes the
task that calls it.  What it says does not depend on what it is asked, so no loop stops or fails by
itself after its first pass: if it comes through that one, it goes on to the last pass, unless
something interrupts it.
-/

namespace Ensemble

structure Request where
  task : String
  -- The session as it was when the call was made.
  history : List Event
  -- Whether deltas are wanted, or one delta with the whole answer.
  stream : Bool
  deriving DecidableEq

inductive AgentError where
  | transport (message : String)
  | rejected (message : String)
  | unavailable (message : String)
  deriving DecidableEq

def AgentError.message : AgentError → String
  | .transport message => "Transport error: " ++ message
  | .rejected message => "Request rejected: " ++ message
  | .unavailable message => "Agent unavailable: " ++ message

inductive Tail where
  | complete
  | transportError (message : String)
  | hang
  deriving DecidableEq

/-- An agent that serves the same script on every call. -/
structure Replay where
  script : List Delta := []
  -- The ticks that pass before each delta.
  delay : Nat := 0
  tail : Tail := .complete
  -- Why every call is refused, if it is.
  rejection : Option AgentError := none
  deriving DecidableEq

namespace Replay

def ofText (text : String) : Replay :=
  { script := [.ofText text, .ofFinish "stop"] }

def ofTranscript (document : String) : Except Transcript.Fault Replay :=
  match Transcript.read document with
  | .ok script => .ok { script }
  | .error fault => .error fault

/-- The same agent with a timer before each delta. -/
def delayed (r : Replay) (milliseconds : Nat) : Replay :=
  { r with delay := timerTicks milliseconds }

/-- The deltas of a call: the script itself, or all of it in one. -/
def deltas (r : Replay) (stream : Bool) : List Delta :=
  if stream then r.script else [Delta.complete r.script]

end Replay

inductive Agent where
  | replay (r : Replay)
  | crashing
  deriving DecidableEq

end Ensemble
