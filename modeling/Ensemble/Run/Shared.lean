import Ensemble.Agent.Registry
import Ensemble.Run.Step
import Ensemble.Session.Feed
import Ensemble.StopRule

/-!
Runs that share one session: the sub-agents run one after the other, once or in repeated passes, and
every one sees what the earlier ones did.
-/

namespace Ensemble.Run

structure Outcome where
  status : Status
  -- The tick at which it was over.
  tick : Nat
  sessions : List Session
  invocations : List Invocation
  -- The requests of the agents, by qualified name, in the order of the calls.
  requests : List (String × Request)
  -- The events of all sessions in the order in which they were added.
  events : List RunEvent
  deriving DecidableEq

inductive Ending where
  | finished (o : Outcome)
  -- The task of the run is gone from a tick on.
  | aborted (tick : Nat)
  -- The run waits for ever.
  | hang
  deriving DecidableEq

structure Progress where
  tick : Nat := 0
  session : Session
  invocations : List Invocation := []
  requests : List (String × Request) := []
  deriving DecidableEq

namespace Progress

def finish (p : Progress) (status : Status) : Ending :=
  .finished
    { status
      tick := p.tick
      sessions := [p.session]
      invocations := p.invocations
      requests := p.requests
      events := p.session.events.map fun e => ⟨p.session.id, e⟩ }

def add (p : Progress) (tick : Nat) (s : Step) : Progress :=
  { tick
    session := s.session
    invocations := p.invocations ++ [s.invocation]
    requests := p.requests ++ (s.request.map fun r => (s.invocation.author, r)).toList }

def nextInvocation (p : Progress) (iteration : Option Nat) (r : AgentReference) : Invocation :=
  { id := "inv-" ++ toString (p.invocations.length + 1)
    agent := r
    sessionId := p.session.id
    iteration }

end Progress

/-- A sub-agent to run, in a loop with the number of the pass. -/
structure Planned where
  iteration : Option Nat
  reference : AgentReference
  agent : Agent

/-- Runs what is planned, until something interrupts, a step does not succeed, or a step of a loop
asks to stop. -/
def runPlan (ctx : Context) (stop : StopRule) (p : Progress) : List Planned → Ending
  | [] => p.finish .succeeded
  | next :: rest =>
    match ctx.signals.interruption? p.tick with
    | some status => p.finish status
    | none =>
      let s := Step.take ctx next.agent (p.nextInvocation next.iteration next.reference) p.session
        p.tick
      match s.close with
      | .crashed tick => .aborted tick
      | .never => .hang
      | .closed tick status response =>
        if status ≠ .succeeded then (p.add tick s).finish status
        else if next.iteration.isSome && response.any stop.stops then
          (p.add tick s).finish .succeeded
        else runPlan ctx stop (p.add tick s) rest

def pass (iteration : Option Nat) (agents : List (AgentReference × Agent)) : List Planned :=
  agents.map fun a => ⟨iteration, a.1, a.2⟩

/-- The plan of a sequential run, or of a loop with so many passes. -/
def plan (passes : Option Nat) (agents : List (AgentReference × Agent)) : List Planned :=
  match passes with
  | none => pass none agents
  | some n => (List.range n).flatMap fun k => pass (some (k + 1)) agents

/-- The agents that references name; the first reference that names none is returned with the
fault. -/
def resolveAll (registry : Registry) :
    List AgentReference → Except (AgentReference × Registry.NotFound)
      (List (AgentReference × Agent))
  | [] => .ok []
  | r :: rest =>
    match registry.resolve r with
    | .error e => .error (r, e)
    | .ok a =>
      match resolveAll registry rest with
      | .error e => .error e
      | .ok as => .ok ((r, a) :: as)

/-- A run on one session.  All references are resolved before the first step; if one names no agent,
an error is all that happens. -/
def shared (ctx : Context) (registry : Registry) (stop : StopRule) (passes : Option Nat)
    (references : List AgentReference) : Ending :=
  let start : Progress := { session := { id := "session-1" } }
  match resolveAll registry references with
  | .error (r, e) =>
    Progress.finish { start with
      session := start.session.append 0 (.error r.qualifiedName e.message) } .failed
  | .ok agents => runPlan ctx stop start (plan passes agents)

end Ensemble.Run
