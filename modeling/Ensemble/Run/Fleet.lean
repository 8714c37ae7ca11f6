import Ensemble.Agent.Registry
import Ensemble.Pool
import Ensemble.Run.Shared

/-!
Runs whose sub-agents run side by side.  Every branch has a session of its own, and a pool of worker
slots bounds how many of them call their agents at once.  A fleet is what all branches have done so
far; it moves on by letting one branch take one action.
-/

namespace Ensemble.Run

inductive Phase where
  | fresh
  -- In the queue for a slot.
  | waiting
  -- Given a slot that it has not taken up yet.
  | granted
  -- Holding a slot, with the rest of its call.
  | calling (rest : List (Nat × EventDraft)) (close : Close)
  | ended
  deriving DecidableEq

structure Branch where
  agent : Except Registry.NotFound Agent
  session : Session
  invocation : Invocation
  request : Option Request := none
  phase : Phase := .fresh

namespace Branch

def start (registry : Registry) (position : Nat) (r : AgentReference) : Branch :=
  let sessionId := "session-" ++ toString (position + 1)
  { agent := registry.resolve r
    session := { id := sessionId }
    invocation := { id := "inv-" ++ toString (position + 1), agent := r, sessionId } }

def holdsSlot (b : Branch) : Bool :=
  match b.phase with
  | .granted => true
  | .calling _ _ => true
  | _ => false

def isEnded (b : Branch) : Bool :=
  match b.phase with
  | .ended => true
  | _ => false

/-- The tick at which a branch can act, if it ever can. -/
def dueAt (b : Branch) (signals : Signals) (now : Nat) : Option Nat :=
  match b.phase with
  | .fresh => some now
  | .granted => some now
  | .waiting => signals.first?.map fun tick => max tick now
  | .calling ((tick, _) :: _) _ => some (max tick now)
  | .calling [] (.closed tick _ _) => some (max tick now)
  | .calling [] (.crashed tick) => some (max tick now)
  | .calling [] .never => none
  | .ended => none

/-- An upper bound of the actions that a branch still takes. -/
def work (b : Branch) : Nat :=
  match b.phase with
  | .calling rest _ => rest.length + 1
  | .ended => 0
  | _ =>
    match b.agent with
    | .ok (.replay r) => r.script.length + 8
    | _ => 8

/-- Ends without ever having had a slot. -/
def giveUp (b : Branch) (now : Nat) : Branch :=
  { b with invocation := b.invocation.transition now .cancelled, phase := .ended }

/-- Ends because its reference names no agent. -/
def fail (b : Branch) (now : Nat) (e : Registry.NotFound) : Branch :=
  let author := b.invocation.author
  { b with
    session := (b.session.append now (.error author e.message)).append now
      (.status author b.invocation.id .failed)
    invocation := b.invocation.transition now .failed
    phase := .ended }

def begin (b : Branch) (ctx : Context) (agent : Agent) (now : Nat) : Branch :=
  let t := Step.trace ctx agent b.invocation now
  { b with
    invocation := b.invocation.transition now .running
    request := if t.called then some (Step.requestFor ctx b.invocation b.session now) else none
    phase := .calling t.drafts t.close }

/-- What is recorded of a branch whose task is gone: a new invocation that failed. -/
def crashRecord (b : Branch) (count now : Nat) (position : Nat) : Invocation :=
  Invocation.transition
    { id := "inv-" ++ toString (count + position + 1)
      agent := b.invocation.agent
      sessionId := b.session.id }
    now .failed

end Branch

structure Fleet where
  now : Nat := 0
  pool : Pool
  branches : List Branch
  -- The events of all branches in the order in which they were added.
  events : List RunEvent := []

namespace Fleet

def start (registry : Registry) (workers : Nat) (references : List AgentReference) : Fleet :=
  { pool := .ofSize workers
    branches := references.mapIdx (Branch.start registry) }

/-- Puts a branch in its place and notes the events that it has added. -/
def update (f : Fleet) (position : Nat) (b : Branch) : Fleet :=
  let known := (f.branches[position]?.map fun b => b.session.length).getD 0
  { f with
    branches := f.branches.set position b
    events := f.events ++ (b.session.events.drop known).map fun e => ⟨b.session.id, e⟩ }

/-- Gives a slot back; the branch that gets it may take it up. -/
def release (f : Fleet) : Fleet :=
  match f.pool.release with
  | (pool, none) => { f with pool }
  | (pool, some position) =>
    { f with pool, branches := f.branches.modify position fun b => { b with phase := .granted } }

def ask (f : Fleet) (ctx : Context) (position : Nat) (b : Branch) (agent : Agent) : Fleet :=
  match f.pool.acquire position (ctx.signals.interrupt? f.now) with
  | (_, .refused _) => f.update position (b.giveUp f.now)
  | (pool, .queued) => { f with pool }.update position { b with phase := .waiting }
  | (pool, .acquired) => { f with pool }.update position (b.begin ctx agent f.now)

/-- A branch takes up the slot that it was given, unless something interrupts. -/
def takeUp (f : Fleet) (ctx : Context) (position : Nat) (b : Branch) (agent : Agent) : Fleet :=
  match ctx.signals.interrupt? f.now with
  | some _ => (f.update position (b.giveUp f.now)).release
  | none => f.update position (b.begin ctx agent f.now)

def act (f : Fleet) (ctx : Context) (position : Nat) (b : Branch) : Fleet :=
  match b.phase with
  | .fresh =>
    match b.agent with
    | .error e => f.update position (b.fail f.now e)
    | .ok agent => f.ask ctx position b agent
  | .waiting => { f with pool := f.pool.abandon position }.update position (b.giveUp f.now)
  | .granted =>
    match b.agent with
    | .error e => f.update position (b.fail f.now e)
    | .ok agent => f.takeUp ctx position b agent
  | .calling ((_, d) :: rest) close =>
    f.update position { b with session := b.session.append f.now d, phase := .calling rest close }
  | .calling [] (.closed _ status _) =>
    (f.update position
      { b with invocation := b.invocation.transition f.now status, phase := .ended }).release
  | .calling [] (.crashed _) =>
    (f.update position
      { b with
        invocation := b.crashRecord f.branches.length f.now position
        phase := .ended }).release
  | .calling [] .never => f
  | .ended => f

def dueAt (f : Fleet) (ctx : Context) (position : Nat) : Option Nat :=
  match f.branches[position]? with
  | some b => b.dueAt ctx.signals f.now
  | none => none

/-- The branch that can act first, and the tick; of several ones the first in order. -/
def soonest? (f : Fleet) (ctx : Context) : Option (Nat × Nat) :=
  (List.range f.branches.length).foldl
    (fun best position =>
      match f.dueAt ctx position, best with
      | none, best => best
      | some tick, none => some (tick, position)
      | some tick, some (t, p) => if tick < t then some (tick, position) else some (t, p))
    none

/-- The clock moves to a tick and a branch acts. -/
def turn (f : Fleet) (ctx : Context) (tick position : Nat) : Fleet :=
  match f.branches[position]? with
  | some b => { f with now := tick }.act ctx position b
  | none => f

/-- Lets branches act as long as one can; the first argument bounds the number of actions. -/
def advance (ctx : Context) : Nat → Fleet → Fleet
  | 0, f => f
  | n + 1, f =>
    match f.soonest? ctx with
    | some (tick, position) => advance ctx n (f.turn ctx tick position)
    | none => f

def work (f : Fleet) : Nat :=
  f.branches.foldr (fun b total => b.work + total) 0

def invocations (f : Fleet) : List Invocation :=
  f.branches.map Branch.invocation

def anyWith (f : Fleet) (s : Status) : Bool :=
  f.invocations.any fun i => i.status = s

/-- The status of a run whose branches have all ended.  A branch that was cut short outweighs one
that succeeded, and one that succeeded outweighs those that failed. -/
def status (f : Fleet) (signals : Signals) : Status :=
  if f.anyWith .timedOut || (f.anyWith .cancelled && signals.deadlinePassed f.now) then .timedOut
  else if signals.isCancelled f.now && f.anyWith .cancelled then .cancelled
  else if f.anyWith .succeeded then .succeeded
  else .failed

def requests (f : Fleet) : List (String × Request) :=
  f.branches.flatMap fun b => (b.request.map fun r => (b.invocation.author, r)).toList

def outcome (f : Fleet) (signals : Signals) : Outcome :=
  { status := f.status signals
    tick := f.now
    sessions := f.branches.map Branch.session
    invocations := f.invocations
    requests := f.requests
    events := f.events }

end Fleet

/-- A run with a branch for every reference and so many worker slots. -/
def sideBySide (ctx : Context) (registry : Registry) (workers : Nat)
    (references : List AgentReference) : Ending :=
  let start := Fleet.start registry workers references
  let final := start.advance ctx start.work
  if final.branches.all Branch.isEnded then .finished (final.outcome ctx.signals) else .hang

end Ensemble.Run
