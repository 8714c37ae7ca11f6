import Ensemble.Proofs.Event.Encoded
import Ensemble.Proofs.Workflow.Encoded
import Ensemble.Settings.Basic

/-!
Everything that has a JSON form comes back from it: events before they are recorded, responses,
workflow definitions and settings.
-/

namespace Ensemble

open Json (Returns present)

/-! ## Settings -/

namespace Settings

def Engine.fields (e : Engine) : List (String × Option Json) :=
  [("default_max_workers", some (.nat e.defaultMaxWorkers.toNat)),
    ("event_capacity", some (.nat e.eventCapacity.toNat)), ("log_level", some (.string e.logLevel)),
    ("streaming", some (.bool e.streaming))]

theorem Engine.toJson_eq_present (e : Engine) : e.toJson = .object (present e.fields) := rfl

theorem Engine.returns (e : Engine) : Returns Engine.ofTree? Engine.toJson e := by
  obtain ⟨read, hread, hget⟩ := Json.exists_fields e.fields (by simp [fields])
    ["default_max_workers", "event_capacity", "streaming", "log_level"]
  have hworkers : read.withDefault "default_max_workers" Workflow.defaultMaxWorkers
      Json.Tree.uint32? = some e.defaultMaxWorkers :=
    Json.withDefault_of_field (by simp [hget, fields]) (Json.returns_uint32 _)
  have hcapacity : read.withDefault "event_capacity" 256 Json.Tree.uint64? = some e.eventCapacity :=
    Json.withDefault_of_field (by simp [hget, fields]) (Json.returns_uint64 _)
  have hstreaming : read.withDefault "streaming" true Json.Tree.bool? = some e.streaming :=
    Json.withDefault_of_field (by simp [hget, fields]) (Json.returns_bool _)
  have hlevel : read.withDefault "log_level" "info" Json.Tree.string? = some e.logLevel :=
    Json.withDefault_of_field (by simp [hget, fields]) (Json.returns_string _)
  simp [Returns, toJson_eq_present, ofTree?, hread, hworkers, hcapacity, hstreaming, hlevel]

def LoopStop.fields (s : LoopStop) : List (String × Option Json) :=
  [("text_marker", some (Json.ofOption .string s.textMarker)),
    ("tool_name", some (.string s.toolName))]

theorem LoopStop.toJson_eq_present (s : LoopStop) : s.toJson = .object (present s.fields) := rfl

theorem LoopStop.returns (s : LoopStop) : Returns LoopStop.ofTree? LoopStop.toJson s := by
  obtain ⟨read, hread, hget⟩ := Json.exists_fields s.fields (by simp [fields])
    ["tool_name", "text_marker"]
  have hname : read.withDefault "tool_name" "exit_loop" Json.Tree.string? = some s.toolName :=
    Json.withDefault_of_field (by simp [hget, fields]) (Json.returns_string _)
  have hmarker : read.withDefault "text_marker" none (Json.Tree.nullable Json.Tree.string?) =
      some s.textMarker :=
    Json.withDefault_of_field (by simp [hget, fields])
      (Json.returns_ofOption (fun _ _ => Json.returns_string _) rfl)
  simp [Returns, toJson_eq_present, ofTree?, hread, hname, hmarker]

def fields (s : Settings) : List (String × Option Json) :=
  [("engine", some s.engine.toJson), ("loop_stop", some s.loopStop.toJson)]

theorem toJson_eq_present (s : Settings) : s.toJson = .object (present s.fields) := rfl

theorem returns (s : Settings) : Returns ofTree? toJson s := by
  obtain ⟨read, hread, hget⟩ := Json.exists_fields s.fields (by simp [fields])
    ["engine", "loop_stop"]
  have hengine : read.withDefault "engine" {} Engine.ofTree? = some s.engine :=
    Json.withDefault_of_field (by simp [hget, fields]) (Engine.returns _)
  have hloopStop : read.withDefault "loop_stop" {} LoopStop.ofTree? = some s.loopStop :=
    Json.withDefault_of_field (by simp [hget, fields]) (LoopStop.returns _)
  simp [Returns, toJson_eq_present, ofTree?, hread, hengine, hloopStop]

end Settings

/-! ## The whole schema -/

/-- Decoding undoes encoding.  Arguments of tool calls have to be maps for that, as the members of
any JSON object are; fields may be absent and lists empty. -/
theorem decode_encode :
    (∀ d : EventDraft, d.Proper → EventDraft.ofTree? (.ofJson d.toJson) = some d) ∧
    (∀ r : Response, r.Proper → Response.ofTree? false (.ofJson r.toJson) = some r) ∧
    (∀ d : Workflow.Definition, Workflow.Definition.ofTree? (.ofJson d.toJson) = some d) ∧
    ∀ s : Settings, Settings.ofTree? (.ofJson s.toJson) = some s :=
  ⟨fun _ => EventDraft.returns, fun _ => Response.returns false, Workflow.Definition.returns,
    Settings.returns⟩

/-- A response whose tool call has an argument with the key of the tag, and a definition in which
most fields are absent. -/
theorem decode_encode_nested :
    let call : ToolCall :=
      { id := "c1"
        name := "write"
        arguments :=
          [("lines", .array [.nat 1, .null]), ("type", .object [("state", .bool true)])] }
    let r : Response :=
      { toolCalls := [call]
        finishReason := some .toolCalls
        termination := .transportError "gone" }
    let d : EventDraft := .response "writer" r
    let w : Workflow.Definition := { loop := some { subAgents := [{ name := "a" }] } }
    (d.Proper ∧ r.Proper) ∧ EventDraft.ofTree? (.ofJson d.toJson) = some d ∧
      Response.ofTree? false (.ofJson r.toJson) = some r ∧
      Workflow.Definition.ofTree? (.ofJson w.toJson) = some w ∧
      Settings.ofTree? (.ofJson ({} : Settings).toJson) = some {} := by
  intro call r d w
  have hproper : r.Proper := by
    simp only [r, call, Response.Proper, ToolCall.Proper, List.mem_singleton, forall_eq,
      Json.KeysAscend, Json.MembersAscend, Json.ItemsAscend, Ordered.Sorted, Json.nat]
    decide
  obtain ⟨hdrafts, hresponses, hdefinitions, hsettings⟩ := decode_encode
  exact ⟨⟨hproper, hproper⟩, hdrafts d hproper, hresponses r hproper, hdefinitions w, hsettings {}⟩

end Ensemble
