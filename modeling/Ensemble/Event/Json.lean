import Ensemble.Event.Basic
import Ensemble.Response.Json

/-!
The JSON form of events.
-/

namespace Ensemble

open Json (Tree Fields)

namespace EventKind

def name : EventKind → String
  | .text => "text"
  | .toolCall => "tool_call"
  | .toolResult => "tool_result"
  | .error => "error"
  | .statusChange => "status_change"

def all : List EventKind :=
  [.text, .toolCall, .toolResult, .error, .statusChange]

def toJson (k : EventKind) : Json := .string k.name

def ofTree? (t : Tree) : Option EventKind :=
  t.variant? false (all.map fun k => (k.name, k))

end EventKind

namespace EventPayload

def toJson : EventPayload → Json
  | .text t => .object [("text", .string t), ("type", .string "text")]
  | .response r =>
    .object (r.members ++ [("type", .string "response"), ("usage", r.usage.toJson)])
  | .toolResult callId content isError =>
    .object [("call_id", .string callId), ("content", .string content), ("is_error", .bool isError),
      ("type", .string "tool_result")]
  | .error message => .object [("message", .string message), ("type", .string "error")]
  | .status invocationId s =>
    .object [("invocation_id", .string invocationId), ("status", s.toJson),
      ("type", .string "status")]

/-- What a payload holds beside its tag is read from a buffer. -/
def ofTree? (t : Tree) : Option EventPayload := do
  let (type, rest) ←
    t.tagged? false "type" ["text", "response", "tool_result", "error", "status"]
  match type with
  | "text" =>
    let fields ← Fields.ofTree? ["text"] rest
    return .text (← fields.required "text" Tree.string?)
  | "response" => (Response.ofTree? true rest).map .response
  | "tool_result" =>
    let fields ← Fields.ofTree? ["call_id", "content", "is_error"] rest
    let callId ← fields.required "call_id" Tree.string?
    let content ← fields.required "content" Tree.string?
    let isError ← fields.required "is_error" Tree.bool?
    return .toolResult callId content isError
  | "error" =>
    let fields ← Fields.ofTree? ["message"] rest
    return .error (← fields.required "message" Tree.string?)
  | _ =>
    let fields ← Fields.ofTree? ["invocation_id", "status"] rest
    let invocationId ← fields.required "invocation_id" Tree.string?
    let status ← fields.required "status" (Status.ofTree? true)
    return .status invocationId status

end EventPayload

namespace EventDraft

def members (d : EventDraft) : List (String × Json) :=
  [("author", .string d.author), ("kind", d.kind.toJson), ("partial", .bool d.isPartial),
    ("payload", d.payload.toJson)]

def toJson (d : EventDraft) : Json := .object d.members

/-- The draft among the fields of a draft or of an event. -/
def ofFields? (fields : Fields) : Option EventDraft := do
  let author ← fields.required "author" Tree.string?
  let kind ← fields.required "kind" EventKind.ofTree?
  let isPartial ← fields.required "partial" Tree.bool?
  let payload ← fields.required "payload" EventPayload.ofTree?
  return { author, kind, isPartial, payload }

def ofTree? (t : Tree) : Option EventDraft :=
  (Fields.ofTree? ["author", "kind", "partial", "payload"] t).bind ofFields?

end EventDraft

namespace Event

/-- The members of an event, with those of `more` in the place of their keys. -/
def toJsonWith (more : List (String × Json)) (e : Event) : Json :=
  .object (e.draft.members ++ ("sequence", .nat e.sequence) :: more ++
    [("timestamp", .string e.timestamp.write)])

def toJson (e : Event) : Json := e.toJsonWith []

def timestampOfTree? (t : Tree) : Option Timestamp :=
  t.string?.bind Timestamp.read?

def ofTree? (t : Tree) : Option Event := do
  let fields ←
    Fields.ofTree? ["sequence", "author", "kind", "partial", "timestamp", "payload"] t
  let sequence ← fields.required "sequence" (Tree.below? UInt64.size)
  let timestamp ← fields.required "timestamp" timestampOfTree?
  let draft ← EventDraft.ofFields? fields
  return { sequence, timestamp, draft }

end Event

end Ensemble
