import Ensemble.Delta.Basic
import Ensemble.Json.Record

/-!
The canonical JSON form of deltas.  Fields that hold nothing are left out.
-/

namespace Ensemble

open Json (Tree Fields)

namespace Usage

def toJson (u : Usage) : Json :=
  .object [("input_tokens", .nat u.inputTokens.toNat), ("output_tokens", .nat u.outputTokens.toNat)]

def ofTree? (t : Tree) : Option Usage := do
  let fields ← Fields.ofTree? ["input_tokens", "output_tokens"] t
  let inputTokens ← fields.withDefault "input_tokens" 0 Tree.uint64?
  let outputTokens ← fields.withDefault "output_tokens" 0 Tree.uint64?
  return { inputTokens, outputTokens }

end Usage

namespace CallFragment

def toJson (f : CallFragment) : Json :=
  .object (Json.member? "arguments" (f.arguments.map .string) ++
    Json.member? "id" (f.id.map .string) ++
    [("index", .nat f.index.toNat)] ++
    Json.member? "name" (f.name.map .string))

def ofTree? (t : Tree) : Option CallFragment := do
  let fields ← Fields.ofTree? ["index", "id", "name", "arguments"] t
  let index ← fields.required "index" Tree.uint32?
  let id ← fields.withDefault "id" none (Tree.nullable Tree.string?)
  let name ← fields.withDefault "name" none (Tree.nullable Tree.string?)
  let arguments ← fields.withDefault "arguments" none (Tree.nullable Tree.string?)
  return { index, id, name, arguments }

end CallFragment

namespace Delta

/-- A list as a field that is left out when it is empty. -/
def list? {α : Type} (encode : α → Json) : List α → Option Json
  | [] => none
  | as => some (.array (as.map encode))

def toJson (d : Delta) : Json :=
  .object (Json.member? "finish_reason" (d.finishReason.map .string) ++
    Json.member? "text" (d.text.map .string) ++
    Json.member? "tool_calls" (list? CallFragment.toJson d.toolCalls) ++
    Json.member? "usage" (d.usage.map Usage.toJson))

def ofTree? (t : Tree) : Option Delta := do
  let fields ← Fields.ofTree? ["text", "tool_calls", "finish_reason", "usage"] t
  let text ← fields.withDefault "text" none (Tree.nullable Tree.string?)
  let toolCalls ← fields.withDefault "tool_calls" [] (Tree.listOf CallFragment.ofTree?)
  let finishReason ← fields.withDefault "finish_reason" none (Tree.nullable Tree.string?)
  let usage ← fields.withDefault "usage" none (Tree.nullable Usage.ofTree?)
  return { text, toolCalls, finishReason, usage }

end Delta

end Ensemble
