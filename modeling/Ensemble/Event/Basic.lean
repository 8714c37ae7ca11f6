import Ensemble.Event.Timestamp
import Ensemble.Response.Basic
import Ensemble.Status

/-!
Events: the facts that are recorded about a run.  A producer makes a draft; the log that takes it
gives it a number and a time.
-/

namespace Ensemble

inductive EventKind where
  | text
  | toolCall
  | toolResult
  | error
  | statusChange
  deriving DecidableEq

inductive EventPayload where
  | text (text : String)
  | response (response : Response)
  | toolResult (callId content : String) (isError : Bool)
  | error (message : String)
  | status (invocationId : String) (status : Status)
  deriving DecidableEq

structure EventDraft where
  author : String
  kind : EventKind
  -- A partial event is shown live and repeated as a whole by a later one.
  isPartial : Bool
  payload : EventPayload
  deriving DecidableEq

namespace EventDraft

def partialText (author text : String) : EventDraft :=
  { author, kind := .text, isPartial := true, payload := .text text }

/-- A response counts as a tool call when it carries any. -/
def response (author : String) (r : Response) : EventDraft :=
  { author
    kind := if r.toolCalls.isEmpty then .text else .toolCall
    isPartial := false
    payload := .response r }

def toolResult (author callId content : String) (isError : Bool) : EventDraft :=
  { author, kind := .toolResult, isPartial := false, payload := .toolResult callId content isError }

def error (author message : String) : EventDraft :=
  { author, kind := .error, isPartial := false, payload := .error message }

def status (author invocationId : String) (s : Status) : EventDraft :=
  { author, kind := .statusChange, isPartial := false, payload := .status invocationId s }

end EventDraft

structure Event where
  sequence : Nat
  timestamp : Timestamp
  draft : EventDraft
  deriving DecidableEq

namespace Event

def response? (e : Event) : Option Response :=
  match e.draft.payload with
  | .response r => some r
  | _ => none

def text? (e : Event) : Option String :=
  match e.draft.payload with
  | .text text => some text
  | .response r => r.text
  | _ => none

end Event

end Ensemble
