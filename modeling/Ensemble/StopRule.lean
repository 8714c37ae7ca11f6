import Ensemble.Response.Basic
import Ensemble.Settings.Basic
import Ensemble.Text.Search

/-!
When a response asks a loop to stop.
-/

namespace Ensemble

inductive StopRule where
  | never
  -- A call of the tool or a text with the marker stops the loop.
  | signal (toolName : String) (textMarker : Option String)
  -- Any other way to tell from a response.
  | custom (recognises : Response → Bool)

namespace StopRule

/-- The rule that settings give; an empty marker is none. -/
def ofSettings (s : Settings.LoopStop) : StopRule :=
  .signal s.toolName (s.textMarker.bind Delta.nonEmpty?)

def default : StopRule :=
  ofSettings {}

/-- An empty tool name is never called. -/
def callsTool (toolName : String) (r : Response) : Bool :=
  !toolName.isEmpty && r.toolCalls.any fun c => c.name = toolName

def isMarked (marker : Option String) (r : Response) : Bool :=
  match marker, r.text with
  | some m, some text => Text.contains text m
  | _, _ => false

def stops (rule : StopRule) (r : Response) : Bool :=
  match rule with
  | .never => false
  | .signal toolName textMarker => callsTool toolName r || isMarked textMarker r
  | .custom recognises => recognises r

end StopRule

end Ensemble
