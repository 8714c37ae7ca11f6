import Ensemble.Clock
import Ensemble.Workflow.Definition

/-!
Invocations: one attempt of one sub-agent inside a run.
-/

namespace Ensemble

structure Invocation where
  id : String
  agent : AgentReference
  sessionId : String
  -- The pass of a loop, counted from 1.
  iteration : Option Nat := none
  status : Status := .pending
  startedAt : Option Timestamp := none
  finishedAt : Option Timestamp := none
  deriving DecidableEq

namespace Invocation

/-- Moves to a status and notes when it began to run and when it ended; a final status is kept. -/
def transition (i : Invocation) (now : Nat) (s : Status) : Invocation :=
  if i.status.isTerminal then i
  else
    { i with
      status := s
      startedAt := if s = .running then some (.ofTick now) else i.startedAt
      finishedAt := if s.isTerminal then some (.ofTick now) else i.finishedAt }

def mayMove (i : Invocation) : Bool :=
  !i.status.isTerminal

def author (i : Invocation) : String :=
  i.agent.qualifiedName

def timeJson (t : Option Timestamp) : Json :=
  Json.ofOption (fun t => .string t.write) t

def toJson (i : Invocation) : Json :=
  .object ([("agent", i.agent.toJson), ("finished_at", timeJson i.finishedAt),
      ("id", .string i.id)] ++
    Json.member? "iteration" (i.iteration.map .nat) ++
    [("session_id", .string i.sessionId), ("started_at", timeJson i.startedAt),
      ("status", i.status.toJson)])

end Invocation

end Ensemble
