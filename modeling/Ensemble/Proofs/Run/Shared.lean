import Ensemble.Proofs.Run.Course
import Ensemble.Proofs.Run.Plan

/-!
Runs on one session as a whole.  Such a run is over at once if one of its references names no agent,
and otherwise carries out its plan from an empty session on.
-/

namespace Ensemble.Run

/-- What a run on one session starts from. -/
def Progress.start : Progress :=
  { session := { id := "session-1" } }

/-- What a run comes to, if it finishes. -/
def Ending.outcome? : Ending → Option Outcome
  | .finished o => some o
  | _ => none

/-- The outcome of a run with a reference that names no agent. -/
def Outcome.ofUnresolved (r : AgentReference) (e : Registry.NotFound) : Outcome :=
  let session := Progress.start.session.append 0 (.error r.qualifiedName e.message)
  { status := .failed
    tick := 0
    sessions := [session]
    invocations := []
    requests := []
    events := session.events.map fun e => ⟨session.id, e⟩ }

variable {ctx : Context} {registry : Registry} {stop : StopRule} {passes : Option Nat}
  {references : List AgentReference}

theorem shared_of_unresolved {r : AgentReference} {e : Registry.NotFound}
    (h : resolveAll registry references = .error (r, e)) :
    shared ctx registry stop passes references = .finished (.ofUnresolved r e) := by
  rw [shared, h]
  rfl

theorem shared_of_resolved {agents : List (AgentReference × Agent)}
    (h : resolveAll registry references = .ok agents) :
    shared ctx registry stop passes references = runPlan ctx stop .start (plan passes agents) := by
  rw [shared, h]
  rfl

/-- A run on one session that has finished had a reference to nobody, or has a course. -/
theorem shared_cases {o : Outcome}
    (h : shared ctx registry stop passes references = .finished o) :
    (∃ r e, resolveAll registry references = .error (r, e) ∧ o = .ofUnresolved r e) ∨
      ∃ agents turns q s, resolveAll registry references = .ok agents ∧
        Course ctx stop .start (plan passes agents) turns q s ∧ q.finish s = .finished o := by
  cases hresolve : resolveAll registry references with
  | error fault =>
    rw [shared_of_unresolved hresolve, Ending.finished.injEq] at h
    exact Or.inl ⟨fault.1, fault.2, rfl, h.symm⟩
  | ok agents =>
    rw [shared_of_resolved hresolve] at h
    obtain ⟨turns, q, s, hcourse, hfinish⟩ := course_of_runPlan h
    exact Or.inr ⟨agents, turns, q, s, rfl, hcourse, hfinish⟩

/-- A run on one session that something can interrupt comes to its end, if no agent crashes. -/
theorem shared_finishes (stop : StopRule) (passes : Option Nat)
    (hlive : ∀ r ∈ references, registry.resolve r ≠ .ok .crashing) (hsignals : ctx.signals ≠ {}) :
    ∃ o, shared ctx registry stop passes references = .finished o := by
  cases hresolve : resolveAll registry references with
  | error fault => exact ⟨_, shared_of_unresolved hresolve⟩
  | ok agents =>
    rw [shared_of_resolved hresolve]
    have hplan := live_plan agents hresolve hlive passes
    exact (runPlan_ends ctx stop hplan .start).resolve_right fun h => hsignals h.2.1

end Ensemble.Run
