import Ensemble.Workflow.Definition
import Ensemble.Workflow.Duration

/-!
Workflows that may run: a definition that obeys every rule becomes a specification, and the first
rule it breaks is reported.
-/

namespace Ensemble.Workflow

def minSubAgents : Nat := 2

def maxSubAgents : Nat := 50

def defaultMaxWorkers : UInt32 := 10

def maxWorkersLimit : UInt32 := 50

def maxIterationsLimit : UInt32 := 100

inductive Composition where
  | sequential
  | parallel (maxWorkers : Nat)
  | loop (maxIterations : Nat)
  deriving DecidableEq

namespace Composition

def name : Composition → String
  | .sequential => "sequential"
  | .parallel _ => "parallel"
  | .loop _ => "loop"

def toJson : Composition → Json
  | .sequential => .object [("type", .string "sequential")]
  | .parallel n => .object [("max_workers", .nat n), ("type", .string "parallel")]
  | .loop n => .object [("max_iterations", .nat n), ("type", .string "loop")]

end Composition

structure Spec where
  description : Option String
  timeout : Option Duration
  composition : Composition
  subAgents : List AgentReference
  deriving DecidableEq

def Spec.toJson (s : Spec) : Json :=
  .object [("composition", s.composition.toJson),
    ("description", Json.ofOption .string s.description),
    ("sub_agents", subAgentsJson s.subAgents), ("timeout", Json.ofOption Duration.toJson s.timeout)]

inductive Fault where
  | noComposition
  | multipleCompositions (found : List String)
  | subAgentCount (count : Nat)
  | emptySubAgentName (position : Nat)
  | unsupportedKind (name kind : String)
  | maxWorkers (value : UInt32)
  | maxIterations (value : UInt32)
  | invalidTimeout (value : String) (reason : Duration.Fault)
  deriving DecidableEq

def quotedList (names : List String) : String :=
  "[" ++ ", ".intercalate (names.map fun n => "\"" ++ n ++ "\"") ++ "]"

def Fault.message : Fault → String
  | .noComposition => "workflow must declare one of sequential, parallel or loop"
  | .multipleCompositions found =>
    "workflow declares more than one composition: " ++ quotedList found
  | .subAgentCount count =>
    "workflow must list between " ++ toString minSubAgents ++ " and " ++ toString maxSubAgents ++
      " sub-agents, got " ++ toString count
  | .emptySubAgentName position => "sub-agent #" ++ toString position ++ " has an empty name"
  | .unsupportedKind name kind =>
    "sub-agent `" ++ name ++ "` has unsupported kind `" ++ kind ++ "` (expected `" ++
      agentKind ++ "`)"
  | .maxWorkers value =>
    "parallel maxWorkers must be between 1 and " ++ toString maxWorkersLimit.toNat ++ ", got " ++
      toString value.toNat
  | .maxIterations value =>
    "loop maxIterations must be between 1 and " ++ toString maxIterationsLimit.toNat ++ ", got " ++
      toString value.toNat
  | .invalidTimeout value reason => "invalid timeout `" ++ value ++ "`: " ++ reason.message

/-- The compositions that a definition declares, by name. -/
def Definition.declared (d : Definition) : List String :=
  (if d.sequential.isSome then ["sequential"] else []) ++
    (if d.parallel.isSome then ["parallel"] else []) ++
    (if d.loop.isSome then ["loop"] else [])

/-- The only composition of a definition, within its bounds, and the sub-agents it lists.  A
parallel part without a worker count takes the given one. -/
def Definition.composition (d : Definition) (defaultWorkers : UInt32) :
    Except Fault (Composition × List AgentReference) :=
  match d.sequential, d.parallel, d.loop with
  | some part, none, none => .ok (.sequential, part.subAgents)
  | none, some part, none =>
    let value := part.maxWorkers.getD defaultWorkers
    if 1 ≤ value && value ≤ maxWorkersLimit then .ok (.parallel value.toNat, part.subAgents)
    else .error (.maxWorkers value)
  | none, none, some part =>
    if 1 ≤ part.maxIterations && part.maxIterations ≤ maxIterationsLimit then
      .ok (.loop part.maxIterations.toNat, part.subAgents)
    else .error (.maxIterations part.maxIterations)
  | none, none, none => .error .noComposition
  | _, _, _ => .error (.multipleCompositions d.declared)

def referenceFault? (position : Nat) (r : AgentReference) : Option Fault :=
  if Text.isBlankText r.name then some (.emptySubAgentName position)
  else if r.kind ≠ agentKind then some (.unsupportedKind r.name r.kind)
  else none

/-- The first fault among references, the first of which has the given position. -/
def firstReferenceFault? (position : Nat) : List AgentReference → Option Fault
  | [] => none
  | r :: rest => (referenceFault? position r).or (firstReferenceFault? (position + 1) rest)

def subAgentsFault? (rs : List AgentReference) : Option Fault :=
  if minSubAgents ≤ rs.length && rs.length ≤ maxSubAgents then firstReferenceFault? 0 rs
  else some (.subAgentCount rs.length)

def readTimeout : Option String → Except Fault (Option Duration)
  | none => .ok none
  | some value =>
    match Duration.read value with
    | .ok d => .ok (some d)
    | .error reason => .error (.invalidTimeout value reason)

/-- Checks a definition: its composition, then its sub-agents from the left, then its timeout. -/
def Definition.validate (d : Definition) (defaultWorkers : UInt32) : Except Fault Spec :=
  match d.composition defaultWorkers with
  | .error fault => .error fault
  | .ok (composition, subAgents) =>
    match subAgentsFault? subAgents with
    | some fault => .error fault
    | none =>
      match readTimeout d.timeout with
      | .error fault => .error fault
      | .ok timeout => .ok { description := d.description, timeout, composition, subAgents }

end Ensemble.Workflow
