import Ensemble.Agent.Basic
import Ensemble.Clock
import Ensemble.Response.Assembly

/-!
One call of an agent on virtual time: which deltas arrive when, how the call ends, and which events
it adds to its session.  Failures never escape; they end up as an event and a status.
-/

namespace Ensemble

inductive HearingEnd where
  -- The agent has nothing more to say.
  | ended (tick : Nat) (how : StreamEnd)
  -- The caller stopped reading.
  | interrupted (tick : Nat) (why : Interrupt)
  -- Nothing more ever happens.
  | never
  deriving DecidableEq

structure Hearing where
  arrived : List (Nat × Delta)
  ending : HearingEnd
  deriving DecidableEq

/-- What the end of a script becomes when nothing interrupts until then. -/
def Tail.ending (tail : Tail) (signals : Signals) (now : Nat) : HearingEnd :=
  match tail with
  | .complete => .ended now .completed
  | .transportError message => .ended now (.transportError (AgentError.transport message).message)
  | .hang =>
    match signals.first? with
    | some tick =>
      match signals.interrupt? tick with
      | some why => .interrupted tick why
      | none => .never
    | none => .never

/-- Waits for one delta after the other, starting at a tick at which nothing interrupts. -/
def Replay.listen (r : Replay) (signals : Signals) (now : Nat) : List Delta → Hearing
  | [] => ⟨[], r.tail.ending signals now⟩
  | d :: ds =>
    let due := now + r.delay
    match signals.firstBy? due with
    | some (tick, why) => ⟨[], .interrupted tick why⟩
    | none =>
      let rest := r.listen signals due ds
      ⟨(due, d) :: rest.arrived, rest.ending⟩

def Replay.call (r : Replay) (signals : Signals) (stream : Bool) (now : Nat) : Hearing :=
  match r.rejection with
  | some e => ⟨[], .ended now (.transportError e.message)⟩
  | none => r.listen signals now (r.deltas stream)

inductive Close where
  | closed (tick : Nat) (status : Status) (response : Option Response)
  -- The task that made the call is gone.
  | crashed (tick : Nat)
  | never
  deriving DecidableEq

/-- What one call does: the drafts it adds, each with its tick, and how it closes. -/
structure Trace where
  drafts : List (Nat × EventDraft)
  close : Close
  -- Whether the agent was called at all.
  called : Bool
  deriving DecidableEq

namespace Call

/-- The status of a call that was not interrupted. -/
def statusOf (final : EventDraft) : Status :=
  if final.kind = .error then .failed else .succeeded

def responseOf (final : EventDraft) : Option Response :=
  match final.payload with
  | .response r => some r
  | _ => none

def partialDrafts (author : String) (arrived : List (Nat × Delta)) : List (Nat × EventDraft) :=
  arrived.filterMap fun a => (a.2.partialEvent? author).map fun e => (a.1, e)

def finalDraft (author : String) (arrived : List (Nat × Delta)) (how : StreamEnd) : EventDraft :=
  (({} : Assembly).pushAll (arrived.map Prod.snd)).finish author how

/-- The last two drafts of a call and how it closes. -/
def closing (author invocationId : String) (tick : Nat) (final : EventDraft) (status : Status) :
    List (Nat × EventDraft) × Close :=
  ([(tick, final), (tick, .status author invocationId status)],
    .closed tick status (responseOf final))

def ending (author invocationId : String) (h : Hearing) : List (Nat × EventDraft) × Close :=
  match h.ending with
  | .ended tick how =>
    let final := finalDraft author h.arrived how
    closing author invocationId tick final (statusOf final)
  | .interrupted tick why =>
    closing author invocationId tick (finalDraft author h.arrived .cancelled) why.status
  | .never => ([], .never)

/-- What a call does after it has noted that it is running. -/
def traceOf (author invocationId : String) (now : Nat) (h : Hearing) (called : Bool) : Trace :=
  let (drafts, close) := ending author invocationId h
  { drafts :=
      (now, .status author invocationId .running) :: partialDrafts author h.arrived ++ drafts
    close
    called }

/-- A call that begins at a tick.  If something interrupts already, the agent is not called. -/
def trace (agent : Agent) (signals : Signals) (stream : Bool) (author invocationId : String)
    (now : Nat) : Trace :=
  match signals.interrupt? now with
  | some why => traceOf author invocationId now ⟨[], .interrupted now why⟩ false
  | none =>
    match agent with
    | .replay r => traceOf author invocationId now (r.call signals stream now) true
    | .crashing =>
      { drafts := [(now, .status author invocationId .running)]
        close := .crashed now
        called := true }

end Call

end Ensemble
