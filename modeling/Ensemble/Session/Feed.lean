import Ensemble.Session.Basic

/-!
The live feed of the events of several sessions.  Between two readings it keeps the newest events,
as many as it has room for, and counts those that it lost.
-/

namespace Ensemble

structure RunEvent where
  sessionId : String
  event : Event
  deriving DecidableEq

def RunEvent.toJson (e : RunEvent) : Json :=
  e.event.toJsonWith [("session_id", .string e.sessionId)]

structure Feed where
  capacity : Nat
  kept : List RunEvent := []
  lost : Nat := 0
  deriving DecidableEq

namespace Feed

/-- The least power of two that is not below a number. -/
def roundUp (n : Nat) : Nat :=
  if n ≤ 1 then 1 else Nat.pow 2 ((n - 1).log2 + 1)

/-- A feed with room for at least so many events: the next power of two. -/
def ofCapacity (capacity : Nat) : Feed :=
  { capacity := roundUp capacity }

/-- Adds an event; a full feed loses its oldest one. -/
def push (f : Feed) (e : RunEvent) : Feed :=
  if f.kept.length < f.capacity then { f with kept := f.kept ++ [e] }
  else { f with kept := f.kept.drop 1 ++ [e], lost := f.lost + 1 }

def pushAll (f : Feed) (es : List RunEvent) : Feed :=
  es.foldl push f

def drained (f : Feed) : Feed :=
  { capacity := f.capacity }

end Feed

end Ensemble
