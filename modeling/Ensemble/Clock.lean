import Ensemble.Event.Timestamp
import Ensemble.Status

/-!
Virtual time and what may interrupt waiting.  The clock counts whole milliseconds from the start of
a run and moves only while everything waits.  A deadline is known to the nanosecond, but nothing
happens between two ticks, so it is noticed at the first tick that is not before it.
-/

namespace Ensemble

/-- The time of a tick, when the first tick is the start of 1970. -/
def Timestamp.ofTick (tick : Nat) : Timestamp :=
  ⟨(tick / 1000 : Nat), tick % 1000 * 1000000⟩

/-- Waiting for what may never happen is given up after this many milliseconds, which are 400
days. -/
def horizon : Nat := 400 * 24 * 60 * 60 * 1000

/-- The longest that a timer can be set for, in milliseconds: thirty years of 365 days. -/
def longestTimer : Nat := 30 * 365 * 24 * 60 * 60 * 1000

/-- How many ticks a timer takes that is set for so many milliseconds: one that is set for longer
than timers can be goes off when the longest one does. -/
def timerTicks (milliseconds : Nat) : Nat :=
  min milliseconds longestTimer

inductive Interrupt where
  | cancelled
  | deadline
  deriving DecidableEq

def Interrupt.status : Interrupt → Status
  | .cancelled => .cancelled
  | .deadline => .timedOut

structure Signals where
  -- The tick at which cancellation is requested.
  cancelAt : Option Nat := none
  -- The deadline in nanoseconds.
  deadline : Option Nat := none
  deriving DecidableEq

namespace Signals

def nanosPerTick : Nat := 1000000

def deadlineTick? (s : Signals) : Option Nat :=
  s.deadline.map fun d => (d + (nanosPerTick - 1)) / nanosPerTick

/-- How many ticks waiting for the deadline takes, if it passes before the waiting is given up. -/
def untilDeadline? (s : Signals) (now : Nat) : Option Nat :=
  (s.deadlineTick?.map fun tick => tick - now).filter fun ticks => ticks ≤ horizon

/-- Whether the end of a run at a tick is seen by the one who started it and waits for it.  Who is
going to cancel the run stays until then or until it ends; anyone else leaves at the horizon, before
anything else happens at that tick. -/
def seesEnd (s : Signals) (tick : Nat) : Bool :=
  s.cancelAt.isSome || tick < horizon

def isCancelled (s : Signals) (now : Nat) : Bool :=
  s.cancelAt.any fun c => c ≤ now

def deadlinePassed (s : Signals) (now : Nat) : Bool :=
  s.deadline.any fun d => d ≤ now * nanosPerTick

/-- What ends waiting at a tick: a cancellation is noticed before the deadline. -/
def interrupt? (s : Signals) (now : Nat) : Option Interrupt :=
  if s.isCancelled now then some .cancelled
  else if s.deadlinePassed now then some .deadline
  else none

/-- What ends a run between two steps: the deadline is noticed before a cancellation. -/
def interruption? (s : Signals) (now : Nat) : Option Status :=
  if s.deadlinePassed now then some .timedOut
  else if s.isCancelled now then some .cancelled
  else none

def first? (s : Signals) : Option Nat :=
  match s.cancelAt, s.deadlineTick? with
  | some c, some d => some (min c d)
  | some c, none => some c
  | none, d => d

/-- The first interrupt that is due by a tick, and its tick. -/
def firstBy? (s : Signals) (due : Nat) : Option (Nat × Interrupt) :=
  match s.first? with
  | some tick => if tick ≤ due then (s.interrupt? tick).map fun i => (tick, i) else none
  | none => none

end Signals

end Ensemble
