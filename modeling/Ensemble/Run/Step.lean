import Ensemble.Call
import Ensemble.Invocation

/-!
One step of a run: an invocation makes its call and its session takes the events.
-/

namespace Ensemble

structure Run.Context where
  task : String
  -- Whether agents are asked for deltas or for whole answers.
  stream : Bool := true
  signals : Signals := {}

structure Step where
  session : Session
  invocation : Invocation
  -- What the agent was given, if it was called.
  request : Option Request
  close : Close
  deriving DecidableEq

namespace Step

def trace (ctx : Run.Context) (agent : Agent) (i : Invocation) (now : Nat) : Trace :=
  Call.trace agent ctx.signals ctx.stream i.author i.id now

/-- What an agent is given: the session ends with the event that its invocation is running. -/
def requestFor (ctx : Run.Context) (i : Invocation) (s : Session) (now : Nat) : Request :=
  { task := ctx.task
    history := (s.append now (.status i.author i.id .running)).events
    stream := ctx.stream }

def settle (i : Invocation) : Close → Invocation
  | .closed tick status _ => i.transition tick status
  | .crashed _ => i
  | .never => i

/-- Makes the call of an invocation, beginning at a tick. -/
def take (ctx : Run.Context) (agent : Agent) (i : Invocation) (s : Session) (now : Nat) : Step :=
  let t := trace ctx agent i now
  { session := s.appendAll t.drafts
    invocation := settle (i.transition now .running) t.close
    request := if t.called then some (requestFor ctx i s now) else none
    close := t.close }

end Step

end Ensemble
