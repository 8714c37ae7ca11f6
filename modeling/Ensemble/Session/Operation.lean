import Ensemble.Session.Journal

/-!
What is asked of a journal, one operation after the other, and what it answers.
-/

namespace Ensemble.Journal

inductive Operation where
  | append (id : String) (now : Nat) (d : EventDraft)
  | snapshot (id : String)
  | length (id : String)
  | lastFinal (id : String)
  -- Reads all that the feed holds.
  | drain
  deriving DecidableEq

inductive Answer where
  -- The number that an event was given.
  | added (sequence : Nat)
  | events (es : List Event)
  | length (n : Nat)
  | event (e : Option Event)
  -- What came over the feed since it was last read, and how many events it has lost.
  | delivered (es : List RunEvent) (lagged : Nat)
  deriving DecidableEq

def answer (j : Journal) : Operation → Answer
  | .append id now d => .added ((j.session id).stamp now d).sequence
  | .snapshot id => .events (j.session id).events
  | .length id => .length (j.session id).length
  | .lastFinal id => .event (j.session id).lastFinal?
  | .drain => .delivered j.received j.lagged

def after (j : Journal) : Operation → Journal
  | .append id now d => j.append id now d
  | .drain => j.drained
  | _ => j

/-- What comes of a journal by operations in order. -/
def perform (j : Journal) (ops : List Operation) : Journal :=
  ops.foldl after j

def answers (j : Journal) : List Operation → List Answer
  | [] => []
  | op :: ops => j.answer op :: (j.after op).answers ops

/-- Sessions that share a live feed with room for at least so many events. -/
def ofCapacity (capacity : Nat) : Journal :=
  { feed := some (.ofCapacity capacity) }

end Ensemble.Journal
