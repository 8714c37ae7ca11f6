import Ensemble.Session.Feed

/-!
Several sessions that share one live feed.  What is added to any of them is numbered in its own
session and also goes to the feed.
-/

namespace Ensemble

structure Journal where
  -- The sessions that have been written to, by their ids.
  sessions : List (String × Session) := []
  feed : Option Feed := none
  deriving DecidableEq

namespace Journal

/-- A session that has not been written to is empty. -/
def session (j : Journal) (id : String) : Session :=
  (Ordered.get? id j.sessions).getD { id }

def append (j : Journal) (id : String) (now : Nat) (d : EventDraft) : Journal :=
  let s := j.session id
  { sessions := Ordered.insert id (s.append now d) j.sessions
    feed := j.feed.map fun f => f.push ⟨id, s.stamp now d⟩ }

/-- The events that a reading of the feed gives. -/
def received (j : Journal) : List RunEvent :=
  (j.feed.map Feed.kept).getD []

/-- The number of events that the feed has lost since the last reading. -/
def lagged (j : Journal) : Nat :=
  (j.feed.map Feed.lost).getD 0

def drained (j : Journal) : Journal :=
  { j with feed := j.feed.map Feed.drained }

end Journal

end Ensemble
