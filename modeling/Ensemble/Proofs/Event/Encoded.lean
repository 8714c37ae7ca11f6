import Ensemble.Event.Json
import Ensemble.Proofs.Json.Encoded

/-!
Events that are decoded after they were encoded.  The arguments of a tool call come back as long as
they are a map, as the members of any JSON object are; everything else always does.
-/

namespace Ensemble

open Json (Returns present)

/-! ## Responses -/

namespace Usage

def fields (u : Usage) : List (String × Option Json) :=
  [("input_tokens", some (.nat u.inputTokens.toNat)),
    ("output_tokens", some (.nat u.outputTokens.toNat))]

theorem toJson_eq_present (u : Usage) : u.toJson = .object (present u.fields) := rfl

theorem returns (u : Usage) : Returns ofTree? toJson u := by
  obtain ⟨read, hread, hget⟩ := Json.exists_fields u.fields (by simp [fields])
    ["input_tokens", "output_tokens"]
  have hinput : read.withDefault "input_tokens" 0 Json.Tree.uint64? = some u.inputTokens :=
    Json.withDefault_of_field (by simp [hget, fields]) (Json.returns_uint64 _)
  have houtput : read.withDefault "output_tokens" 0 Json.Tree.uint64? = some u.outputTokens :=
    Json.withDefault_of_field (by simp [hget, fields]) (Json.returns_uint64 _)
  simp [Returns, toJson_eq_present, ofTree?, hread, hinput, houtput]

end Usage

namespace ToolCall

/-- The arguments are a map, and so are the objects in them. -/
def Proper (c : ToolCall) : Prop :=
  (Json.object c.arguments).KeysAscend

def fields (c : ToolCall) : List (String × Option Json) :=
  [("arguments", some (.object c.arguments)), ("id", some (.string c.id)),
    ("name", some (.string c.name))]

theorem toJson_eq_present (c : ToolCall) : c.toJson = .object (present c.fields) := rfl

theorem returns {c : ToolCall} (h : c.Proper) : Returns ofTree? toJson c := by
  obtain ⟨read, hread, hget⟩ := Json.exists_fields c.fields (by simp [fields])
    ["id", "name", "arguments"]
  have hid : read.required "id" Json.Tree.string? = some c.id :=
    Json.required_of_field (by simp [hget, fields]) (Json.returns_string _)
  have hname : read.required "name" Json.Tree.string? = some c.name :=
    Json.required_of_field (by simp [hget, fields]) (Json.returns_string _)
  have harguments : read.required "arguments" Json.Tree.members? = some c.arguments :=
    Json.required_of_field (by simp [hget, fields]) (Json.returns_members h)
  simp [Returns, toJson_eq_present, ofTree?, hread, hid, hname, harguments]

end ToolCall

theorem FinishReason.returns (buffered : Bool) (r : FinishReason) :
    Returns (ofTree? buffered) toJson r := by
  cases r <;> rfl

namespace Termination

def state : Termination → String
  | .completed => "completed"
  | .cancelled => "cancelled"
  | .transportError _ => "transport_error"

/-- The fields beside the tag. -/
def fields : Termination → List (String × Option Json)
  | .transportError message => [("message", some (.string message))]
  | _ => []

theorem toJson_eq_present (t : Termination) :
    t.toJson = .object (present (t.fields ++ [("state", some (.string t.state))])) := by
  cases t <;> rfl

theorem tagged?_toJson (buffered : Bool) (t : Termination) :
    (Json.Tree.ofJson t.toJson).tagged? buffered "state"
        ["completed", "cancelled", "transport_error"] =
      some (t.state, .ofJson (.object (present t.fields))) := by
  rw [toJson_eq_present]
  cases t <;>
  · rw [Json.tagged?_present (by simp [fields]) (by simp [fields]; rfl) (by simp [state])]
    simp [fields]

theorem returns (buffered : Bool) (t : Termination) : Returns (ofTree? buffered) toJson t := by
  rw [Returns, ofTree?, tagged?_toJson]
  cases t with
  | completed => rfl
  | cancelled => rfl
  | transportError message =>
    obtain ⟨read, hread, hget⟩ := Json.exists_fields (transportError message).fields
      (by simp [fields]) ["message"]
    have hmessage : read.required "message" Json.Tree.string? = some message :=
      Json.required_of_field (by simp [hget, fields]) (Json.returns_string _)
    simp [state, hread, hmessage]

end Termination

namespace Response

/-- The arguments of all tool calls are maps. -/
def Proper (r : Response) : Prop :=
  ∀ c ∈ r.toolCalls, c.Proper

/-- The fields before the place of a tag. -/
def leading (r : Response) : List (String × Option Json) :=
  [("finish_reason", r.finishReason.map FinishReason.toJson),
    ("termination", some r.termination.toJson), ("text", r.text.map .string),
    ("tool_calls", Delta.list? ToolCall.toJson r.toolCalls)]

def fields (r : Response) : List (String × Option Json) :=
  r.leading ++ [("usage", some r.usage.toJson)]

theorem members_append (r : Response) (more : List (String × Option Json)) :
    r.members ++ present more = present (r.leading ++ more) := by
  simp [members, present, leading, Json.member?]

theorem toJson_eq_present (r : Response) : r.toJson = .object (present r.fields) := by
  rw [fields, ← members_append]
  rfl

theorem returns (buffered : Bool) {r : Response} (h : r.Proper) :
    Returns (ofTree? buffered) toJson r := by
  obtain ⟨read, hread, hget⟩ := Json.exists_fields r.fields (by simp [fields, leading])
    ["text", "tool_calls", "finish_reason", "termination", "usage"]
  have htext : read.withDefault "text" none (Json.Tree.nullable Json.Tree.string?) = some r.text :=
    Json.withDefault_of_option (by simp [hget, fields, leading]) Json.returns_string rfl
  have hcalls : read.withDefault "tool_calls" [] (Json.Tree.listOf ToolCall.ofTree?) =
      some r.toolCalls :=
    Json.withDefault_of_list? (by simp [hget, fields, leading]) fun c hc =>
      ToolCall.returns (h c hc)
  have hfinish : read.withDefault "finish_reason" none
      (Json.Tree.nullable (FinishReason.ofTree? buffered)) = some r.finishReason :=
    Json.withDefault_of_option (by simp [hget, fields, leading]) (FinishReason.returns buffered) rfl
  have htermination : read.required "termination" (Termination.ofTree? buffered) =
      some r.termination :=
    Json.required_of_field (by simp [hget, fields, leading]) (Termination.returns buffered _)
  have husage : read.withDefault "usage" {} Usage.ofTree? = some r.usage :=
    Json.withDefault_of_field (by simp [hget, fields, leading]) (Usage.returns _)
  simp [Returns, toJson_eq_present, ofTree?, hread, htext, hcalls, hfinish, htermination, husage]

end Response

/-! ## Drafts -/

theorem Status.returns (buffered : Bool) (s : Status) : Returns (ofTree? buffered) toJson s := by
  cases s <;> rfl

theorem EventKind.returns (k : EventKind) : Returns ofTree? toJson k := by
  cases k <;> rfl

namespace EventPayload

def type : EventPayload → String
  | .text _ => "text"
  | .response _ => "response"
  | .toolResult _ _ _ => "tool_result"
  | .error _ => "error"
  | .status _ _ => "status"

/-- The fields beside the tag. -/
def fields : EventPayload → List (String × Option Json)
  | .text t => [("text", some (.string t))]
  | .response r => r.fields
  | .toolResult callId content isError =>
    [("call_id", some (.string callId)), ("content", some (.string content)),
      ("is_error", some (.bool isError))]
  | .error message => [("message", some (.string message))]
  | .status invocationId s =>
    [("invocation_id", some (.string invocationId)), ("status", some s.toJson)]

/-- All fields in the order of their keys. -/
def tagged : EventPayload → List (String × Option Json)
  | .response r =>
    r.leading ++ [("type", some (.string "response")), ("usage", some r.usage.toJson)]
  | p => p.fields ++ [("type", some (.string p.type))]

theorem toJson_eq_present (p : EventPayload) : p.toJson = .object (present p.tagged) := by
  cases p with
  | response r =>
    rw [tagged, ← Response.members_append]
    rfl
  | _ => rfl

theorem tagged?_toJson (p : EventPayload) :
    (Json.Tree.ofJson p.toJson).tagged? false "type"
        ["text", "response", "tool_result", "error", "status"] =
      some (p.type, .ofJson (.object (present p.fields))) := by
  rw [toJson_eq_present]
  cases p <;>
  · rw [Json.tagged?_present (by simp [tagged, fields, Response.leading])
      (by simp [tagged, fields, Response.leading]; rfl) (by simp [type])]
    simp [tagged, fields, Response.fields, Response.leading, type]

/-- The arguments of all tool calls are maps. -/
def Proper : EventPayload → Prop
  | .response r => r.Proper
  | _ => True

theorem returns {p : EventPayload} (h : p.Proper) : Returns ofTree? toJson p := by
  rw [Returns, ofTree?, tagged?_toJson]
  cases p with
  | text t =>
    obtain ⟨read, hread, hget⟩ := Json.exists_fields (text t).fields
      (by simp [fields]) ["text"]
    have htext : read.required "text" Json.Tree.string? = some t :=
      Json.required_of_field (by simp [hget, fields]) (Json.returns_string _)
    simp [type, hread, htext]
  | response r =>
    have hresponse : Response.ofTree? true (.ofJson (.object (present r.fields))) = some r := by
      rw [← Response.toJson_eq_present]
      exact Response.returns true h
    simp [type, fields, hresponse]
  | toolResult callId content isError =>
    obtain ⟨read, hread, hget⟩ := Json.exists_fields
      (toolResult callId content isError).fields (by simp [fields])
      ["call_id", "content", "is_error"]
    have hcallId : read.required "call_id" Json.Tree.string? = some callId :=
      Json.required_of_field (by simp [hget, fields]) (Json.returns_string _)
    have hcontent : read.required "content" Json.Tree.string? = some content :=
      Json.required_of_field (by simp [hget, fields]) (Json.returns_string _)
    have hisError : read.required "is_error" Json.Tree.bool? = some isError :=
      Json.required_of_field (by simp [hget, fields]) (Json.returns_bool _)
    simp [type, hread, hcallId, hcontent, hisError]
  | error message =>
    obtain ⟨read, hread, hget⟩ := Json.exists_fields (error message).fields
      (by simp [fields]) ["message"]
    have hmessage : read.required "message" Json.Tree.string? = some message :=
      Json.required_of_field (by simp [hget, fields]) (Json.returns_string _)
    simp [type, hread, hmessage]
  | status invocationId s =>
    obtain ⟨read, hread, hget⟩ := Json.exists_fields (status invocationId s).fields
      (by simp [fields]) ["invocation_id", "status"]
    have hid : read.required "invocation_id" Json.Tree.string? = some invocationId :=
      Json.required_of_field (by simp [hget, fields]) (Json.returns_string _)
    have hstatus : read.required "status" (Status.ofTree? true) = some s :=
      Json.required_of_field (by simp [hget, fields]) (Status.returns true s)
    simp [type, hread, hid, hstatus]

end EventPayload

namespace EventDraft

def Proper (d : EventDraft) : Prop :=
  d.payload.Proper

def fields (d : EventDraft) : List (String × Option Json) :=
  [("author", some (.string d.author)), ("kind", some d.kind.toJson),
    ("partial", some (.bool d.isPartial)), ("payload", some d.payload.toJson)]

theorem toJson_eq_present (d : EventDraft) : d.toJson = .object (present d.fields) := rfl

theorem returns {d : EventDraft} (h : d.Proper) : Returns ofTree? toJson d := by
  obtain ⟨read, hread, hget⟩ := Json.exists_fields d.fields (by simp [fields])
    ["author", "kind", "partial", "payload"]
  have hauthor : read.required "author" Json.Tree.string? = some d.author :=
    Json.required_of_field (by simp [hget, fields]) (Json.returns_string _)
  have hkind : read.required "kind" EventKind.ofTree? = some d.kind :=
    Json.required_of_field (by simp [hget, fields]) (EventKind.returns _)
  have hpartial : read.required "partial" Json.Tree.bool? = some d.isPartial :=
    Json.required_of_field (by simp [hget, fields]) (Json.returns_bool _)
  have hpayload : read.required "payload" EventPayload.ofTree? = some d.payload :=
    Json.required_of_field (by simp [hget, fields]) (EventPayload.returns h)
  simp [Returns, toJson_eq_present, ofTree?, ofFields?, hread, hauthor, hkind, hpartial, hpayload]

end EventDraft

end Ensemble
