import Ensemble.Delta.Json
import Ensemble.Json.Reader

/-!
Reading deltas tolerantly.  Two shapes are known: the canonical one and the chunks of a chat
completion, which are recognised by their choices.  A field that is missing, unknown or of the wrong
type never makes a delta fail; only what is no JSON object at all does.
-/

namespace Ensemble.Delta

inductive Fault where
  | notJson
  | notObject
  deriving DecidableEq

def Fault.message : Fault → String
  | .notJson => "JSON error: " ++ Json.faultText
  | .notObject => "Failed to parse delta: delta must be a JSON object"

def at? (path : List String) (j : Json) : Option Json :=
  path.foldl (fun j? key => j?.bind (Json.get? key)) (some j)

def stringAt? (path : List String) (j : Json) : Option String :=
  (at? path j).bind Json.string?

def itemsAt (path : List String) (j : Json) : List Json :=
  ((at? path j).bind Json.items?).getD []

def counterAt (path : List String) (j : Json) : UInt64 :=
  UInt64.ofNat (((at? path j).bind Json.unsigned?).getD 0)

/-- A position that is missing or no 32-bit number counts as the first one. -/
def indexAt (path : List String) (j : Json) : UInt32 :=
  match (at? path j).bind Json.unsigned? with
  | some n => if n < UInt32.size then UInt32.ofNat n else 0
  | none => 0

/-- A fragment whose name and arguments lie under a path. -/
def readFragment (under : List String) (call : Json) : CallFragment :=
  { index := indexAt ["index"] call
    id := stringAt? ["id"] call
    name := stringAt? (under ++ ["name"]) call
    arguments := stringAt? (under ++ ["arguments"]) call }

/-- The counters of a chunk, if its usage is an object. -/
def chunkUsage (raw : Json) : Option Usage :=
  match at? ["usage"] raw with
  | some usage =>
    if usage.isObject then
      some { inputTokens := counterAt ["prompt_tokens"] usage
             outputTokens := counterAt ["completion_tokens"] usage }
    else none
  | none => none

/-- A chat-completion chunk; only the first of its choices is read, and an empty text is no text. -/
def readChunk (raw choices : Json) : Delta :=
  let choice := match choices with
    | .array (first :: _) => first
    | _ => .null
  { text := (stringAt? ["delta", "content"] choice).bind nonEmpty?
    toolCalls := (itemsAt ["delta", "tool_calls"] choice).map (readFragment ["function"])
    finishReason := stringAt? ["finish_reason"] choice
    usage := chunkUsage raw }

def readCanonical (raw : Json) : Delta :=
  { text := stringAt? ["text"] raw
    toolCalls := (itemsAt ["tool_calls"] raw).map (readFragment [])
    finishReason := stringAt? ["finish_reason"] raw
    usage := (at? ["usage"] raw).bind fun usage => Usage.ofTree? (.ofJson usage) }

def ofJson? (raw : Json) : Except Fault Delta :=
  if raw.isObject then
    match raw.get? "choices" with
    | some choices => .ok (readChunk raw choices)
    | none => .ok (readCanonical raw)
  else .error .notObject

/-- Reads one line that holds one JSON object. -/
def ofLine? (line : String) : Except Fault Delta :=
  match Json.ofText? line with
  | some raw => ofJson? raw
  | none => .error .notJson

end Ensemble.Delta
