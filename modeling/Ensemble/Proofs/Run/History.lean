import Ensemble.Proofs.Run.Course
import Ensemble.Proofs.Run.Fleet
import Ensemble.Proofs.Run.Plan
import Ensemble.Run.Basic

/-!
The grammar of the logs that runs leave behind.  Agents that run one after the other write one block
per invocation into the log that they share; agents that run side by side write one block each into
a log of their own.
-/

namespace Ensemble.Run

/-- The log that sub-agents share: a block for every invocation in order, or the error of the first
reference that names no agent. -/
inductive SharedLog (registry : Registry) (references : List AgentReference) (o : Outcome)
    (s : Session) : Prop
  | blocks {logs : List (List EventDraft)}
      (hresolve : ∀ r ∈ references, ∃ agent, registry.resolve r = .ok agent)
      (hblocks : List.Forall₂ (fun (v : Invocation) log =>
        v.sessionId = s.id ∧ ∃ r, Block v.author v.id v.status r log) o.invocations logs)
      (hlog : s.drafts = logs.flatten)
  | unresolved {before after : List AgentReference} {r : AgentReference} {e : Registry.NotFound}
      (hreferences : references = before ++ r :: after)
      (hbefore : ∀ x ∈ before, ∃ agent, registry.resolve x = .ok agent)
      (hfault : registry.resolve r = .error e)
      (hlog : s.drafts = [.error r.qualifiedName e.message])
      (hnone : o.invocations = []) (hfailed : o.status = .failed)

/-- What the logs of a run hold, by its composition. -/
def Logged (registry : Registry) (references : List AgentReference) (o : Outcome) :
    Workflow.Composition → Prop
  | .parallel _ =>
    o.sessions.length = references.length ∧ o.invocations.length = references.length ∧
      ∀ (i : Nat) (r : AgentReference) (s : Session) (v : Invocation), references[i]? = some r →
        o.sessions[i]? = some s → o.invocations[i]? = some v →
          v.agent = r ∧ v.sessionId = s.id ∧ BranchLog v (registry.resolve r) s.drafts
  | _ => ∃ s, o.sessions = [s] ∧ SharedLog registry references o s

variable {ctx : Context} {registry : Registry} {references : List AgentReference} {o : Outcome}

theorem logged_shared {stop : StopRule} {passes : Option Nat}
    (hlive : ∀ r ∈ references, registry.resolve r ≠ .ok .crashing)
    (h : shared ctx registry stop passes references = .finished o) :
    ∃ s, o.sessions = [s] ∧ s.Numbered ∧ SharedLog registry references o s := by
  unfold shared at h
  cases hresolve : resolveAll registry references with
  | error fault =>
    obtain ⟨r, e⟩ := fault
    -- the run is over before its first step, with a single error in the log
    obtain ⟨before, after, hreferences, hbefore, hfault⟩ := first_unresolved hresolve
    simp only [hresolve] at h
    cases h
    refine ⟨_, rfl, (Session.numbered_empty _).append _ _, ?_⟩
    exact .unresolved hreferences hbefore hfault (Session.drafts_append _ _ _) rfl rfl
  | ok agents =>
    simp only [hresolve] at h
    obtain ⟨turns, q, s, hcourse, hfinish⟩ := course_of_runPlan h
    obtain ⟨-, hsessions, hinvocations⟩ := hcourse.outcome_eq rfl hfinish
    refine ⟨q.session, hsessions, hcourse.numbered (Session.numbered_empty _), ?_⟩
    have hlog : q.session.drafts = (turns.map (Turn.log ctx)).flatten := by
      rw [hcourse.drafts_eq, ← List.flatMap_def]
      rfl
    refine .blocks ?_ ?_ hlog
    · intro r hr
      obtain ⟨hnames, hnamed⟩ := resolveAll_ok hresolve
      rw [← hnames] at hr
      obtain ⟨a, ha, rfl⟩ := List.mem_map.mp hr
      exact ⟨_, hnamed a ha⟩
    · -- turn by turn, the invocation and its own part of the log
      rw [hinvocations, List.forall₂_map_left_iff, List.forall₂_map_right_iff, List.forall₂_same]
      intro t ht
      exact ⟨hcourse.sessionId_eq ht,
        _, hcourse.turn_block (live_plan agents hresolve hlive passes) ht⟩

theorem sideBySide_of_ended {workers : Nat}
    (hended : (Fleet.advance ctx (Fleet.start registry workers references).work
      (Fleet.start registry workers references)).branches.all Branch.isEnded = true) :
    sideBySide ctx registry workers references =
      .finished ((Fleet.advance ctx (Fleet.start registry workers references).work
        (Fleet.start registry workers references)).outcome ctx.signals) := by
  unfold sideBySide
  dsimp only
  rw [if_pos hended]

theorem logged_sideBySide {workers : Nat}
    (hlive : ∀ r ∈ references, registry.resolve r ≠ .ok .crashing)
    (h : sideBySide ctx registry workers references = .finished o) :
    (∀ s ∈ o.sessions, s.Numbered) ∧ Logged registry references o (.parallel workers) := by
  have hsound := (Fleet.sound_start workers hlive).advance ctx
    (Fleet.start registry workers references).work
  obtain ⟨hended, rfl⟩ := ended_of_sideBySide h
  constructor
  · intro s hs
    obtain ⟨b, hb, rfl⟩ := List.mem_map.mp hs
    obtain ⟨r, hbranch⟩ := hsound.branch hb
    exact hbranch.numbered
  · refine ⟨(List.length_map _).trans hsound.length, (List.length_map _).trans hsound.length, ?_⟩
    intro i r s v hr hs hv
    obtain ⟨b, hb, rfl⟩ := Option.map_eq_some_iff.mp ((List.getElem?_map ..).symm.trans hs)
    obtain ⟨b', hb', rfl⟩ := Option.map_eq_some_iff.mp ((List.getElem?_map ..).symm.trans hv)
    -- the session and the invocation at a position are those of one branch
    cases hb.symm.trans hb'
    have hbranch := hsound.branches i r b hr hb
    exact ⟨hbranch.reference, hbranch.session,
      hbranch.log_of_ended (hended b (List.mem_of_getElem? hb))⟩

/-- Whatever agents do that do not crash their task, every session of a finished run is numbered
without a gap and its log obeys the grammar of the composition. -/
theorem ofSpec_logged (e : Engine) (ctx : Context) (spec : Workflow.Spec) {o : Outcome}
    (hlive : ∀ r ∈ spec.subAgents, e.registry.resolve r ≠ .ok .crashing)
    (hrun : ofSpec e ctx spec = .finished o) :
    (∀ s ∈ o.sessions, s.Numbered) ∧
      Logged e.registry spec.subAgents o spec.composition := by
  have hshared {passes : Option Nat}
      (h : shared ctx e.registry e.stop passes spec.subAgents = .finished o) :
      (∀ s ∈ o.sessions, s.Numbered) ∧
        ∃ s, o.sessions = [s] ∧ SharedLog e.registry spec.subAgents o s := by
    obtain ⟨s, hsessions, hnumbered, hlog⟩ := logged_shared hlive h
    refine ⟨?_, s, hsessions, hlog⟩
    rw [hsessions]
    exact List.forall_mem_singleton.mpr hnumbered
  unfold ofSpec at hrun
  cases hcomposition : spec.composition with
  | sequential =>
    rw [hcomposition] at hrun
    exact hshared hrun
  | loop n =>
    rw [hcomposition] at hrun
    exact hshared hrun
  | parallel workers =>
    rw [hcomposition] at hrun
    exact logged_sideBySide hlive hrun

/-- One slot for three branches: the first is cut short, the second gives up in the queue, and the
third has no agent. -/
theorem ofSpec_logged_one_slot :
    let spec : Workflow.Spec :=
      { description := none, timeout := none, composition := .parallel 1,
        subAgents := [{ name := "a" }, { name := "b" }, { name := "c" }] }
    let slow : Replay := { script := [.ofText "hi", .ofText "there"], delay := 2, tail := .hang }
    let e : Engine :=
      { registry := { agents := [("a", .replay slow), ("b", .replay (.ofText "ok"))] } }
    let ctx : Context := { task := "t", signals := { cancelAt := some 3 } }
    let fleet := Fleet.start e.registry 1 spec.subAgents
    let o := (Fleet.advance ctx fleet.work fleet).outcome ctx.signals
    (∀ r ∈ spec.subAgents, e.registry.resolve r ≠ .ok .crashing) ∧
      ofSpec e ctx spec = .finished o ∧ (∀ s ∈ o.sessions, s.Numbered) ∧
      Logged e.registry spec.subAgents o spec.composition := by
  intro spec slow e ctx fleet o
  have hlive : ∀ r ∈ spec.subAgents, e.registry.resolve r ≠ .ok .crashing := by decide +kernel
  have hended : (Fleet.advance ctx fleet.work fleet).branches.all Branch.isEnded = true := by
    decide +kernel
  have hside : ofSpec e ctx spec = sideBySide ctx e.registry 1 spec.subAgents := rfl
  have hrun : ofSpec e ctx spec = .finished o := hside.trans (sideBySide_of_ended hended)
  exact ⟨hlive, hrun, ofSpec_logged e ctx spec hlive hrun⟩

end Ensemble.Run
