import Ensemble.Delta.Json
import Ensemble.Response.Basic

/-!
The JSON form of responses.
-/

namespace Ensemble

open Json (Tree Fields)

namespace FinishReason

def name : FinishReason → String
  | .stop => "stop"
  | .maxTokens => "max_tokens"
  | .safety => "safety"
  | .toolCalls => "tool_calls"
  | .recitation => "recitation"

def all : List FinishReason :=
  [.stop, .maxTokens, .safety, .toolCalls, .recitation]

def toJson (r : FinishReason) : Json := .string r.name

def ofTree? (buffered : Bool) (t : Tree) : Option FinishReason :=
  t.variant? buffered (all.map fun r => (r.name, r))

end FinishReason

namespace Termination

def toJson : Termination → Json
  | .completed => .object [("state", .string "completed")]
  | .cancelled => .object [("state", .string "cancelled")]
  | .transportError message =>
    .object [("message", .string message), ("state", .string "transport_error")]

def ofTree? (buffered : Bool) (t : Tree) : Option Termination := do
  let (state, rest) ← t.tagged? buffered "state" ["completed", "cancelled", "transport_error"]
  match state with
  | "completed" => if rest.noFields then some .completed else none
  | "cancelled" => if rest.noFields then some .cancelled else none
  | _ =>
    let fields ← Fields.ofTree? ["message"] rest
    let message ← fields.required "message" Tree.string?
    return .transportError message

end Termination

namespace ToolCall

def toJson (c : ToolCall) : Json :=
  .object [("arguments", .object c.arguments), ("id", .string c.id), ("name", .string c.name)]

def ofTree? (t : Tree) : Option ToolCall := do
  let fields ← Fields.ofTree? ["id", "name", "arguments"] t
  let id ← fields.required "id" Tree.string?
  let name ← fields.required "name" Tree.string?
  let arguments ← fields.required "arguments" Tree.members?
  return { id, name, arguments }

end ToolCall

namespace Response

/-- The members in the order of their keys, around which a payload puts its tag. -/
def members (r : Response) : List (String × Json) :=
  Json.member? "finish_reason" (r.finishReason.map FinishReason.toJson) ++
    [("termination", r.termination.toJson)] ++
    Json.member? "text" (r.text.map .string) ++
    Json.member? "tool_calls" (Delta.list? ToolCall.toJson r.toolCalls)

def toJson (r : Response) : Json :=
  .object (r.members ++ [("usage", r.usage.toJson)])

def ofTree? (buffered : Bool) (t : Tree) : Option Response := do
  let fields ←
    Fields.ofTree? ["text", "tool_calls", "finish_reason", "termination", "usage"] t
  let text ← fields.withDefault "text" none (Tree.nullable Tree.string?)
  let toolCalls ← fields.withDefault "tool_calls" [] (Tree.listOf ToolCall.ofTree?)
  let finishReason ←
    fields.withDefault "finish_reason" none (Tree.nullable (FinishReason.ofTree? buffered))
  let termination ← fields.required "termination" (Termination.ofTree? buffered)
  let usage ← fields.withDefault "usage" {} Usage.ofTree?
  return { text, toolCalls, finishReason, termination, usage }

end Response

end Ensemble
