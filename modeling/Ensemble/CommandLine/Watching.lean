import Ensemble.Run.Basic
import Ensemble.Session.Feed

/-!
Watching a run.  Its events are printed as they come over the live feed.  When the run is over, what
the feed still holds is printed, and at last all events of its logs that have not been printed yet.
-/

namespace Ensemble

/-- What tells the events of a run apart. -/
def RunEvent.key (e : RunEvent) : String × Nat :=
  (e.sessionId, e.event.sequence)

namespace CommandLine

/-- What wakes up the one who watches a run. -/
inductive Wake where
  | received (e : RunEvent)
  -- The feed has lost so many events.
  | lagged (skipped : Nat)
  | feedClosed
  | status (s : Status)
  -- Nobody is left who could report a status.
  | statusGone
  -- The user asks for the run to be cancelled.
  | interrupted
  deriving DecidableEq

/-- What a look at the feed finds there without waiting. -/
inductive Poll where
  | received (e : RunEvent)
  | lagged (skipped : Nat)
  | empty
  | closed
  deriving DecidableEq

/-- What has been printed. -/
structure Printer where
  printed : List RunEvent := []
  seen : List (String × Nat) := []
  deriving DecidableEq

namespace Printer

/-- Prints an event, unless it has been printed before. -/
def print (p : Printer) (e : RunEvent) : Printer :=
  if p.seen.contains e.key then p
  else { printed := p.printed ++ [e], seen := e.key :: p.seen }

def printAll (p : Printer) (es : List RunEvent) : Printer :=
  es.foldl print p

/-- Prints what comes over the feed, until the feed closes or the status is final. -/
def watch (p : Printer) : List Wake → Printer
  | [] => p
  | .received e :: rest => (p.print e).watch rest
  | .lagged _ :: rest => p.watch rest
  | .feedClosed :: _ => p
  | .status s :: rest => if s.isTerminal then p else p.watch rest
  | .statusGone :: _ => p
  | .interrupted :: rest => p.watch rest

/-- Prints what the feed still holds. -/
def drain (p : Printer) : List Poll → Printer
  | [] => p
  | .received e :: rest => (p.print e).drain rest
  | .lagged _ :: rest => p.drain rest
  | .empty :: _ => p
  | .closed :: _ => p

end Printer

def loggedEvents (r : Run) : List RunEvent :=
  r.outcome.sessions.flatMap fun s => s.events.map fun e => ⟨s.id, e⟩

/-- The events of a run in the order in which they are printed. -/
def printedEvents (wakes : List Wake) (polls : List Poll) (r : Run) : List RunEvent :=
  (((({} : Printer).watch wakes).drain polls).printAll (loggedEvents r)).printed

/-- What looks at a feed find until there is nothing more. -/
def pollsOf (f : Feed) : List Poll :=
  (if f.lost = 0 then [] else [.lagged f.lost]) ++ f.kept.map .received ++ [.empty]

/-- What a live feed of the engine holds when a run is over and nobody has read it before. -/
def feedAfter (e : Engine) (r : Run) : Feed :=
  (Feed.ofCapacity e.eventCapacity).pushAll r.outcome.events

end CommandLine

end Ensemble
