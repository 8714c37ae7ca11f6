import Ensemble.Event.Basic
import Ensemble.Json.Reader

/-!
Assembling a response from the deltas of one model call.  The deltas are taken one by one; when the
stream is over, everything that has arrived becomes one final event.
-/

namespace Ensemble

inductive StreamEnd where
  | completed
  | cancelled
  | transportError (message : String)
  deriving DecidableEq

/-- A tool call whose fragments are still arriving. -/
structure PendingCall where
  id : String := ""
  name : String := ""
  arguments : String := ""
  deriving DecidableEq

namespace PendingCall

/-- Keeps what is there already; only an empty text is replaced. -/
def fill (known : String) (given : Option String) : String :=
  if known.isEmpty then given.getD "" else known

/-- The first id and the first name that are not empty stay; arguments are strung together. -/
def merge (p : PendingCall) (f : CallFragment) : PendingCall :=
  { id := fill p.id f.id
    name := fill p.name f.name
    arguments := p.arguments ++ f.arguments.getD "" }

end PendingCall

/-- The JSON object that a text denotes; anything else counts as the empty object. -/
def ToolCall.readArguments (raw : String) : List (String × Json) :=
  ((Json.ofText? raw).bind Json.members?).getD []

/-- A call without id and name was never made. -/
def PendingCall.toToolCall? (p : PendingCall) : Option ToolCall :=
  if p.id.isEmpty && p.name.isEmpty then none
  else some { id := p.id, name := p.name, arguments := ToolCall.readArguments p.arguments }

structure Assembly where
  text : String := ""
  -- The pending calls by their position.
  calls : List (UInt32 × PendingCall) := []
  -- The last finish signal that is not blank.
  finishSignal : Option String := none
  -- The largest report of each counter.
  usage : Usage := {}
  deriving DecidableEq

namespace Assembly

def addFragment (calls : List (UInt32 × PendingCall)) (f : CallFragment) :
    List (UInt32 × PendingCall) :=
  Ordered.alter f.index (fun pending => (pending.getD {}).merge f) calls

def notBlank? (s : String) : Option String :=
  if Text.isBlankText s then none else some s

def maxUsage (a b : Usage) : Usage :=
  { inputTokens := max a.inputTokens b.inputTokens
    outputTokens := max a.outputTokens b.outputTokens }

def push (a : Assembly) (d : Delta) : Assembly :=
  { text := a.text ++ d.chunk
    calls := d.toolCalls.foldl addFragment a.calls
    finishSignal := Delta.latest a.finishSignal (d.finishReason.bind notBlank?)
    usage := maxUsage a.usage (d.usage.getD {}) }

def pushAll (a : Assembly) (ds : List Delta) : Assembly :=
  ds.foldl push a

/-- Text, a fragment of a call or a finish signal has arrived. -/
def hasProgress (a : Assembly) : Bool :=
  !a.text.isEmpty || !a.calls.isEmpty || a.finishSignal.isSome

def toolCalls (a : Assembly) : List ToolCall :=
  a.calls.filterMap fun c => c.2.toToolCall?

/-- What the last signal says, or else that there are tool calls. -/
def finishReason (a : Assembly) : Option FinishReason :=
  (a.finishSignal.bind FinishReason.classify).or
    (if a.toolCalls.isEmpty then none else some .toolCalls)

def response (a : Assembly) (termination : Termination) : Response :=
  { text := Delta.nonEmpty? a.text
    toolCalls := a.toolCalls
    finishReason := a.finishReason
    termination
    usage := a.usage }

/-- The final event.  A transport error is an error only if nothing had arrived before. -/
def finish (author : String) (a : Assembly) : StreamEnd → EventDraft
  | .completed => .response author (a.response .completed)
  | .cancelled => .response author (a.response .cancelled)
  | .transportError message =>
    if a.hasProgress then .response author (a.response (.transportError message))
    else .error author message

end Assembly

/-- The event that shows the text of a delta live, if it carries any. -/
def Delta.partialEvent? (author : String) (d : Delta) : Option EventDraft :=
  (Delta.nonEmpty? d.chunk).map (EventDraft.partialText author)

end Ensemble
