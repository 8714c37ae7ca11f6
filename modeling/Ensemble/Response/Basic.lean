import Ensemble.Delta.Basic
import Ensemble.Json.Basic
import Ensemble.Text.Blank

/-!
The final result of one model call.
-/

namespace Ensemble

/-- Why a model call finished, whatever word the provider has for it. -/
inductive FinishReason where
  | stop
  | maxTokens
  | safety
  | toolCalls
  | recitation
  deriving DecidableEq

namespace FinishReason

/-- The words of the providers for every reason but a normal stop. -/
def signals : FinishReason → List String
  | .stop => []
  | .maxTokens => ["length", "max_tokens", "max_output_tokens", "finish_reason_max_tokens"]
  | .safety =>
    ["content_filter", "safety", "blocked", "prohibited_content", "spii", "finish_reason_safety"]
  | .toolCalls => ["tool_calls", "tool_use", "function_call"]
  | .recitation => ["recitation", "finish_reason_recitation"]

def lowercase (s : String) : String :=
  String.ofList (s.toList.map Char.toLower)

/-- The reason that a signal gives, in any case of its ASCII letters and within any blanks.  A blank
signal gives none, and an unknown one a normal stop. -/
def classify (signal : String) : Option FinishReason :=
  let word := lowercase (Text.trim signal)
  if word.isEmpty then none
  else
    some (([maxTokens, safety, toolCalls, recitation].find? fun r => r.signals.contains word).getD
      .stop)

end FinishReason

inductive Termination where
  | completed
  | cancelled
  | transportError (message : String)
  deriving DecidableEq

structure ToolCall where
  id : String
  name : String
  -- The members of a JSON object.
  arguments : List (String × Json)
  deriving DecidableEq

structure Response where
  text : Option String := none
  toolCalls : List ToolCall := []
  finishReason : Option FinishReason := none
  termination : Termination
  usage : Usage := {}
  deriving DecidableEq

end Ensemble
