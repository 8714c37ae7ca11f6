import Ensemble.Clock
import Ensemble.Event.Json

/-!
Sessions: logs to which events are only ever added.  The events of a session are numbered from 1 in
the order in which they were added.
-/

namespace Ensemble

structure Session where
  id : String
  events : List Event := []
  deriving DecidableEq

namespace Session

def length (s : Session) : Nat :=
  s.events.length

def isEmpty (s : Session) : Bool :=
  s.events.isEmpty

def stamp (s : Session) (now : Nat) (d : EventDraft) : Event :=
  { sequence := s.length + 1, timestamp := .ofTick now, draft := d }

def append (s : Session) (now : Nat) (d : EventDraft) : Session :=
  { s with events := s.events ++ [s.stamp now d] }

/-- Adds drafts in order, each at its own tick. -/
def appendAll (s : Session) (ds : List (Nat × EventDraft)) : Session :=
  ds.foldl (fun s d => s.append d.1 d.2) s

def lastFinal? (s : Session) : Option Event :=
  s.events.reverse.find? fun e => !e.draft.isPartial

def toJson (s : Session) : Json :=
  .object [("events", .array (s.events.map Event.toJson)), ("id", .string s.id)]

end Session

end Ensemble
