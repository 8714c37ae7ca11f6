import Ensemble.Delta.Json
import Ensemble.Json.Record

/-!
Workflow definitions as they are declared, before anything about them is checked.
-/

namespace Ensemble

open Json (Tree Fields)

/-- The only kind of sub-agent that a workflow may list. -/
def agentKind : String := "Agent"

structure AgentReference where
  name : String
  scope : Option String := none
  kind : String := agentKind
  deriving DecidableEq

namespace AgentReference

/-- The name, with the namespace in front unless that is absent or empty. -/
def qualifiedName (r : AgentReference) : String :=
  match r.scope with
  | some ns => if ns.isEmpty then r.name else ns ++ "/" ++ r.name
  | none => r.name

def toJson (r : AgentReference) : Json :=
  .object ([("kind", .string r.kind), ("name", .string r.name)] ++
    Json.member? "namespace" (r.scope.map .string))

def ofTree? (t : Tree) : Option AgentReference := do
  let fields ← Fields.ofTree? ["name", "namespace", "kind"] t
  let name ← fields.required "name" Tree.string?
  let scope ← fields.withDefault "namespace" none (Tree.nullable Tree.string?)
  let kind ← fields.withDefault "kind" agentKind Tree.string?
  return { name, scope, kind }

end AgentReference

namespace Workflow

structure SequentialPart where
  subAgents : List AgentReference := []
  deriving DecidableEq

structure ParallelPart where
  subAgents : List AgentReference := []
  maxWorkers : Option UInt32 := none
  deriving DecidableEq

structure LoopPart where
  subAgents : List AgentReference := []
  maxIterations : UInt32 := 0
  deriving DecidableEq

structure Definition where
  description : Option String := none
  timeout : Option String := none
  sequential : Option SequentialPart := none
  parallel : Option ParallelPart := none
  loop : Option LoopPart := none
  deriving DecidableEq

def subAgentsJson (rs : List AgentReference) : Json :=
  .array (rs.map AgentReference.toJson)

namespace SequentialPart

def toJson (p : SequentialPart) : Json :=
  .object [("subAgents", subAgentsJson p.subAgents)]

def ofTree? (t : Tree) : Option SequentialPart := do
  let fields ← Fields.ofTree? ["subAgents"] t
  let subAgents ← fields.withDefault "subAgents" [] (Tree.listOf AgentReference.ofTree?)
  return { subAgents }

end SequentialPart

namespace ParallelPart

def toJson (p : ParallelPart) : Json :=
  .object (Json.member? "maxWorkers" (p.maxWorkers.map fun n => .nat n.toNat) ++
    [("subAgents", subAgentsJson p.subAgents)])

def ofTree? (t : Tree) : Option ParallelPart := do
  let fields ← Fields.ofTree? ["subAgents", "maxWorkers"] t
  let subAgents ← fields.withDefault "subAgents" [] (Tree.listOf AgentReference.ofTree?)
  let maxWorkers ← fields.withDefault "maxWorkers" none (Tree.nullable Tree.uint32?)
  return { subAgents, maxWorkers }

end ParallelPart

namespace LoopPart

def toJson (p : LoopPart) : Json :=
  .object [("maxIterations", .nat p.maxIterations.toNat), ("subAgents", subAgentsJson p.subAgents)]

def ofTree? (t : Tree) : Option LoopPart := do
  let fields ← Fields.ofTree? ["subAgents", "maxIterations"] t
  let subAgents ← fields.withDefault "subAgents" [] (Tree.listOf AgentReference.ofTree?)
  let maxIterations ← fields.withDefault "maxIterations" 0 Tree.uint32?
  return { subAgents, maxIterations }

end LoopPart

namespace Definition

def toJson (d : Definition) : Json :=
  .object (Json.member? "description" (d.description.map .string) ++
    Json.member? "loop" (d.loop.map LoopPart.toJson) ++
    Json.member? "parallel" (d.parallel.map ParallelPart.toJson) ++
    Json.member? "sequential" (d.sequential.map SequentialPart.toJson) ++
    Json.member? "timeout" (d.timeout.map .string))

def ofTree? (t : Tree) : Option Definition := do
  let fields ← Fields.ofTree? ["description", "timeout", "sequential", "parallel", "loop"] t
  let description ← fields.withDefault "description" none (Tree.nullable Tree.string?)
  let timeout ← fields.withDefault "timeout" none (Tree.nullable Tree.string?)
  let sequential ← fields.withDefault "sequential" none (Tree.nullable SequentialPart.ofTree?)
  let parallel ← fields.withDefault "parallel" none (Tree.nullable ParallelPart.ofTree?)
  let loop ← fields.withDefault "loop" none (Tree.nullable LoopPart.ofTree?)
  return { description, timeout, sequential, parallel, loop }

end Definition

end Workflow

end Ensemble
