import Ensemble.Proofs.Run.Readable

/-!
Runs whose agents answer at once.  Nothing in such a run takes any time: somebody who holds a slot
can always act now, so nobody waits in the queue until a signal comes, and the run is over at the
tick at which it began.
-/

namespace Ensemble

/-- An agent that has said everything as soon as it is called. -/
def Agent.Instant (a : Agent) : Prop :=
  ∃ r, a = .replay r ∧ r.delay = 0 ∧ r.tail ≠ .hang

namespace Agent.Instant

variable {a : Agent}

end Agent.Instant

theorem Replay.listen_by_now {r : Replay} (hdelay : r.delay = 0) (htail : r.tail ≠ .hang)
    (signals : Signals) (now : Nat) (ds : List Delta) : (r.listen signals now ds).By now := by
  induction ds with
  | nil =>
    refine ⟨fun _ ha => (List.not_mem_nil ha).elim, fun tick h => ?_⟩
    rw [listen] at h
    cases hends : r.tail with
    | hang => exact absurd hends htail
    | complete | transportError =>
      rw [hends] at h
      cases h
      exact Nat.le_refl now
  | cons d ds ih =>
    rw [listen, hdelay, Nat.add_zero]
    cases hby : signals.firstBy? now with
    | some first =>
      refine ⟨fun _ ha => (List.not_mem_nil ha).elim, fun tick h => ?_⟩
      cases h
      exact Signals.le_of_firstBy?_eq_some hby
    | none =>
      obtain ⟨harrived, hending⟩ := ih
      refine ⟨?_, hending⟩
      intro a ha
      rcases List.mem_cons.mp ha with rfl | ha
      · exact Nat.le_refl now
      · exact harrived a ha

/-- A call of an agent that answers at once is over when it has begun. -/
theorem Agent.Instant.trace_by {a : Agent} (h : a.Instant) (signals : Signals) (stream : Bool)
    (author id : String) (now : Nat) : (Call.trace a signals stream author id now).By now := by
  obtain ⟨r, rfl, hdelay, htail⟩ := h
  have hnow {how : StreamEnd} : Hearing.By now ⟨[], .ended now how⟩ := by
    refine ⟨fun _ ha => (List.not_mem_nil ha).elim, fun tick h => ?_⟩
    cases h
    exact Nat.le_refl now
  unfold Call.trace
  cases signals.interrupt? now with
  | some why =>
    refine Call.traceOf_by (Nat.le_refl now) ⟨fun _ ha => (List.not_mem_nil ha).elim, ?_⟩
    intro tick h
    cases h
    exact Nat.le_refl now
  | none =>
    refine Call.traceOf_by (Nat.le_refl now) ?_
    unfold Replay.call
    cases r.rejection with
    | none => exact Replay.listen_by_now hdelay htail signals now _
    | some e => exact hnow

namespace Run

variable {ctx : Context} {registry : Registry} {references : List AgentReference}

/-! ## One after the other -/

namespace Fleet

variable {workers : Nat} {f : Fleet}

namespace Reaches

end Reaches

end Fleet

/-! ## Runs of definitions -/

section OfSpec

variable {e : Engine} {spec : Workflow.Spec}
  (hinstant : ∀ r ∈ spec.subAgents, ∀ a, e.registry.resolve r = .ok a → a.Instant)

include hinstant

end OfSpec

end Run

end Ensemble
