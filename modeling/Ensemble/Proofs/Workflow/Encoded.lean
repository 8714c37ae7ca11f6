import Ensemble.Proofs.Json.Encoded
import Ensemble.Workflow.Definition

/-!
Workflow definitions that are decoded after they were encoded, whether or not they would be
accepted.
-/

namespace Ensemble

open Json (Returns present)

namespace AgentReference

def fields (r : AgentReference) : List (String × Option Json) :=
  [("kind", some (.string r.kind)), ("name", some (.string r.name)),
    ("namespace", r.scope.map .string)]

theorem toJson_eq_present (r : AgentReference) : r.toJson = .object (present r.fields) := by
  simp [toJson, present, fields, Json.member?]

theorem returns (r : AgentReference) : Returns ofTree? toJson r := by
  obtain ⟨read, hread, hget⟩ := Json.exists_fields r.fields (by simp [fields])
    ["name", "namespace", "kind"]
  have hname : read.required "name" Json.Tree.string? = some r.name :=
    Json.required_of_field (by simp [hget, fields]) (Json.returns_string _)
  have hscope : read.withDefault "namespace" none (Json.Tree.nullable Json.Tree.string?) =
      some r.scope :=
    Json.withDefault_of_option (by simp [hget, fields]) Json.returns_string rfl
  have hkind : read.withDefault "kind" agentKind Json.Tree.string? = some r.kind :=
    Json.withDefault_of_field (by simp [hget, fields]) (Json.returns_string _)
  simp [Returns, toJson_eq_present, ofTree?, hread, hname, hscope, hkind]

end AgentReference

namespace Workflow

theorem returns_subAgents (rs : List AgentReference) :
    Returns (Json.Tree.listOf AgentReference.ofTree?) subAgentsJson rs :=
  Json.returns_items fun r _ => r.returns

namespace SequentialPart

def fields (p : SequentialPart) : List (String × Option Json) :=
  [("subAgents", some (subAgentsJson p.subAgents))]

theorem toJson_eq_present (p : SequentialPart) : p.toJson = .object (present p.fields) := rfl

theorem returns (p : SequentialPart) : Returns ofTree? toJson p := by
  obtain ⟨read, hread, hget⟩ := Json.exists_fields p.fields (by simp [fields])
    ["subAgents"]
  have hagents : read.withDefault "subAgents" [] (Json.Tree.listOf AgentReference.ofTree?) =
      some p.subAgents :=
    Json.withDefault_of_field (by simp [hget, fields]) (returns_subAgents _)
  simp [Returns, toJson_eq_present, ofTree?, hread, hagents]

end SequentialPart

namespace ParallelPart

def fields (p : ParallelPart) : List (String × Option Json) :=
  [("maxWorkers", p.maxWorkers.map fun n => .nat n.toNat),
    ("subAgents", some (subAgentsJson p.subAgents))]

theorem toJson_eq_present (p : ParallelPart) : p.toJson = .object (present p.fields) := by
  simp [toJson, present, fields, Json.member?]

theorem returns (p : ParallelPart) : Returns ofTree? toJson p := by
  obtain ⟨read, hread, hget⟩ := Json.exists_fields p.fields (by simp [fields])
    ["subAgents", "maxWorkers"]
  have hagents : read.withDefault "subAgents" [] (Json.Tree.listOf AgentReference.ofTree?) =
      some p.subAgents :=
    Json.withDefault_of_field (by simp [hget, fields]) (returns_subAgents _)
  have hworkers : read.withDefault "maxWorkers" none (Json.Tree.nullable Json.Tree.uint32?) =
      some p.maxWorkers :=
    Json.withDefault_of_option (by simp [hget, fields]) Json.returns_uint32 rfl
  simp [Returns, toJson_eq_present, ofTree?, hread, hagents, hworkers]

end ParallelPart

namespace LoopPart

def fields (p : LoopPart) : List (String × Option Json) :=
  [("maxIterations", some (.nat p.maxIterations.toNat)),
    ("subAgents", some (subAgentsJson p.subAgents))]

theorem toJson_eq_present (p : LoopPart) : p.toJson = .object (present p.fields) := rfl

theorem returns (p : LoopPart) : Returns ofTree? toJson p := by
  obtain ⟨read, hread, hget⟩ := Json.exists_fields p.fields (by simp [fields])
    ["subAgents", "maxIterations"]
  have hagents : read.withDefault "subAgents" [] (Json.Tree.listOf AgentReference.ofTree?) =
      some p.subAgents :=
    Json.withDefault_of_field (by simp [hget, fields]) (returns_subAgents _)
  have hiterations : read.withDefault "maxIterations" 0 Json.Tree.uint32? = some p.maxIterations :=
    Json.withDefault_of_field (by simp [hget, fields]) (Json.returns_uint32 _)
  simp [Returns, toJson_eq_present, ofTree?, hread, hagents, hiterations]

end LoopPart

namespace Definition

def fields (d : Definition) : List (String × Option Json) :=
  [("description", d.description.map .string), ("loop", d.loop.map LoopPart.toJson),
    ("parallel", d.parallel.map ParallelPart.toJson),
    ("sequential", d.sequential.map SequentialPart.toJson), ("timeout", d.timeout.map .string)]

theorem toJson_eq_present (d : Definition) : d.toJson = .object (present d.fields) := by
  simp [toJson, present, fields]

theorem returns (d : Definition) : Returns ofTree? toJson d := by
  obtain ⟨read, hread, hget⟩ := Json.exists_fields d.fields (by simp [fields])
    ["description", "timeout", "sequential", "parallel", "loop"]
  have hdescription : read.withDefault "description" none (Json.Tree.nullable Json.Tree.string?) =
      some d.description :=
    Json.withDefault_of_option (by simp [hget, fields]) Json.returns_string rfl
  have htimeout : read.withDefault "timeout" none (Json.Tree.nullable Json.Tree.string?) =
      some d.timeout :=
    Json.withDefault_of_option (by simp [hget, fields]) Json.returns_string rfl
  have hsequential : read.withDefault "sequential" none
      (Json.Tree.nullable SequentialPart.ofTree?) = some d.sequential :=
    Json.withDefault_of_option (by simp [hget, fields]) SequentialPart.returns rfl
  have hparallel : read.withDefault "parallel" none (Json.Tree.nullable ParallelPart.ofTree?) =
      some d.parallel :=
    Json.withDefault_of_option (by simp [hget, fields]) ParallelPart.returns rfl
  have hloop : read.withDefault "loop" none (Json.Tree.nullable LoopPart.ofTree?) = some d.loop :=
    Json.withDefault_of_option (by simp [hget, fields]) LoopPart.returns rfl
  simp [Returns, toJson_eq_present, ofTree?, hread, hdescription, htimeout, hsequential, hparallel,
    hloop]

end Definition

end Workflow

end Ensemble
