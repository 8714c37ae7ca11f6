import Ensemble.Agent.Basic
import Ensemble.Workflow.Definition

/-!
The agents that a workflow may name, by their qualified names.
-/

namespace Ensemble

structure Registry where
  agents : List (String × Agent) := []
  deriving DecidableEq

namespace Registry

structure NotFound where
  reference : String
  deriving DecidableEq

def NotFound.message (e : NotFound) : String :=
  "Sub-agent not found: " ++ e.reference

/-- Enters an agent under a name, in the place of one that had it before. -/
def register (g : Registry) (name : String) (a : Agent) : Registry :=
  { agents := Ordered.insert name a g.agents }

def registerIn (g : Registry) (scope : Option String) (name : String) (a : Agent) : Registry :=
  g.register (AgentReference.qualifiedName { name, scope }) a

def size (g : Registry) : Nat :=
  g.agents.length

def isEmpty (g : Registry) : Bool :=
  g.agents.isEmpty

def resolve (g : Registry) (r : AgentReference) : Except NotFound Agent :=
  match Ordered.get? r.qualifiedName g.agents with
  | some a => .ok a
  | none => .error ⟨r.qualifiedName⟩

end Registry

end Ensemble
