import Ensemble.Proofs.Call.Block
import Ensemble.Proofs.Call.Cause

/-!
The opening of a call.  The first thing that a call does is to report that it is running, and none
of the events that follow reports this again.
-/

namespace Ensemble

/-- The status that a draft reports. -/
def EventDraft.status? (d : EventDraft) : Option Status :=
  match d.payload with
  | .status _ s => some s
  | _ => none

def EventDraft.begins (d : EventDraft) : Bool :=
  d.status? = some .running

namespace Call

theorem not_begins_of_mem_partialDrafts {author : String} {arrived : List (Nat × Delta)}
    {x : Nat × EventDraft} (hx : x ∈ partialDrafts author arrived) : x.2.begins = false := by
  obtain ⟨a, -, ha⟩ := List.mem_filterMap.mp hx
  obtain ⟨e, he, rfl⟩ := Option.map_eq_some_iff.mp ha
  obtain ⟨t, -, rfl⟩ := Option.map_eq_some_iff.mp he
  rfl

theorem not_begins_finalDraft (author : String) (arrived : List (Nat × Delta)) (how : StreamEnd) :
    (finalDraft author arrived how).begins = false := by
  rcases finalDraft_cases author arrived how with ⟨termination, hfinal⟩ | ⟨message, hfinal, -⟩
  · rw [hfinal]
    rfl
  · rw [hfinal]
    rfl

theorem not_begins_of_mem_ending {author id : String} {h : Hearing} {x : Nat × EventDraft}
    (hx : x ∈ (ending author id h).1) : x.2.begins = false := by
  have hclosing {tick : Nat} {final : EventDraft} {s : Status} (hfinal : final.begins = false)
      (hs : s ≠ .running) (hx : x ∈ (closing author id tick final s).1) : x.2.begins = false := by
    rcases List.mem_pair.mp hx with rfl | rfl
    · exact hfinal
    · simpa [EventDraft.begins, EventDraft.status?, EventDraft.status] using hs
  unfold ending at hx
  cases hending : h.ending with
  | ended tick how =>
    rw [hending] at hx
    refine hclosing (not_begins_finalDraft author h.arrived how) ?_ hx
    rcases statusOf_cases (finalDraft author h.arrived how) with hs | hs <;> rw [hs] <;> nofun
  | interrupted tick why =>
    rw [hending] at hx
    refine hclosing (not_begins_finalDraft author h.arrived .cancelled) ?_ hx
    cases why <;> nofun
  | never =>
    rw [hending] at hx
    cases hx

/-- A call reports once that it is running, and this is the first thing that it does. -/
theorem exists_drafts_eq (agent : Agent) (signals : Signals) (stream : Bool)
    (author id : String) (now : Nat) :
    ∃ rest, (trace agent signals stream author id now).drafts =
      (now, .status author id .running) :: rest ∧ ∀ x ∈ rest, x.2.begins = false := by
  have htraceOf (h : Hearing) (called : Bool) :
      ∃ rest, (traceOf author id now h called).drafts =
        (now, .status author id .running) :: rest ∧ ∀ x ∈ rest, x.2.begins = false := by
    refine ⟨_, rfl, fun x hx => ?_⟩
    rcases List.mem_append.mp hx with hx | hx
    · exact not_begins_of_mem_partialDrafts hx
    · exact not_begins_of_mem_ending hx
  unfold trace
  cases signals.interrupt? now with
  | some why => exact htraceOf _ _
  | none =>
    cases agent with
    | replay r => exact htraceOf _ _
    | crashing => exact ⟨[], rfl, fun _ hx => (List.not_mem_nil hx).elim⟩

end Call

end Ensemble
