import Ensemble.Agent.Basic

/-!
Reading a call of an agent outside of any run, with limited patience.
-/

namespace Ensemble

inductive Heard where
  | delta (tick : Nat) (d : Delta)
  | fault (e : AgentError)
  -- Nothing came for as long as the reader waits.
  | silence
  deriving DecidableEq

namespace Replay

def heardAtEnd (r : Replay) : List Heard :=
  match r.tail with
  | .complete => []
  | .transportError message => [.fault (.transport message)]
  | .hang => [.silence]

/-- Reads deltas from a tick on, and gives up when the next one takes longer than the patience. -/
def readDeltas (r : Replay) (patience now : Nat) : List Delta → List Heard
  | [] => r.heardAtEnd
  | d :: ds =>
    if patience < r.delay then [.silence]
    else .delta (now + r.delay) d :: r.readDeltas patience (now + r.delay) ds

/-- Reads a whole call that is opened at tick 0; a call that is refused has nothing to read. -/
def read (r : Replay) (stream : Bool) (patience : Nat) : Except AgentError (List Heard) :=
  match r.rejection with
  | some e => .error e
  | none => .ok (r.readDeltas patience 0 (r.deltas stream))

end Replay

end Ensemble
