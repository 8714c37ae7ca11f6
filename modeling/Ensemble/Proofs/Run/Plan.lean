import Ensemble.Run.Shared
import Mathlib.Data.List.Basic

/-!
What runs on one session are made of: the agents that the references name, and the steps that are
planned for them, pass after pass.
-/

namespace Ensemble.Run

/-! ## References -/

section Resolve

variable {registry : Registry} {references : List AgentReference}
  {agents : List (AgentReference × Agent)}

theorem resolveAll_ok (h : resolveAll registry references = .ok agents) :
    agents.map Prod.fst = references ∧ ∀ a ∈ agents, registry.resolve a.1 = .ok a.2 := by
  -- every reference gets the agent that it names
  induction references generalizing agents with
  | nil =>
    cases h
    exact ⟨rfl, fun _ ha => (List.not_mem_nil ha).elim⟩
  | cons r rest ih =>
    rw [resolveAll] at h
    cases hr : registry.resolve r with
    | error e => simp only [hr, reduceCtorEq] at h
    | ok a =>
      cases hrest : resolveAll registry rest with
      | error e => simp only [hr, hrest, reduceCtorEq] at h
      | ok as =>
        simp only [hr, hrest, Except.ok.injEq] at h
        obtain ⟨hnames, hagents⟩ := ih hrest
        rw [← h, List.map_cons, hnames]
        exact ⟨rfl, List.forall_mem_cons.mpr ⟨hr, hagents⟩⟩

/-- The fault is that of the first reference that names no agent. -/
theorem first_unresolved {r : AgentReference} {e : Registry.NotFound}
    (h : resolveAll registry references = .error (r, e)) :
    ∃ before after, references = before ++ r :: after ∧
      (∀ x ∈ before, ∃ a, registry.resolve x = .ok a) ∧ registry.resolve r = .error e := by
  induction references with
  | nil => cases h
  | cons x rest ih =>
    -- the fault is that of `x` itself, or comes from the references after it
    rw [resolveAll] at h
    cases hx : registry.resolve x with
    | error e' =>
      simp only [hx, Except.error.injEq, Prod.mk.injEq] at h
      obtain ⟨rfl, rfl⟩ := h
      exact ⟨[], rest, rfl, fun _ hmem => (List.not_mem_nil hmem).elim, hx⟩
    | ok a =>
      cases hrest : resolveAll registry rest with
      | error fault =>
        simp only [hx, hrest, Except.error.injEq] at h
        obtain ⟨before, after, happ, hbefore, hr⟩ := ih (hrest.trans (congrArg _ h))
        refine ⟨x :: before, after, ?_, List.forall_mem_cons.mpr ⟨⟨a, hx⟩, hbefore⟩, hr⟩
        rw [happ, List.cons_append]
      | ok as => simp only [hx, hrest, reduceCtorEq] at h

theorem exists_resolveAll (h : ∀ r ∈ references, ∃ a, registry.resolve r = .ok a) :
    ∃ agents, resolveAll registry references = .ok agents := by
  cases hall : resolveAll registry references with
  | ok agents => exact ⟨agents, rfl⟩
  | error fault =>
    obtain ⟨before, after, happ, -, hr⟩ := first_unresolved hall
    have hmem : fault.1 ∈ references := by
      rw [happ]
      exact List.mem_append_right _ List.mem_cons_self
    obtain ⟨a, ha⟩ := h _ hmem
    rw [hr] at ha
    cases ha

end Resolve

/-! ## Plans -/

section Plan

variable (agents : List (AgentReference × Agent))

theorem plan_succ (m : Nat) :
    plan (some (m + 1)) agents = plan (some m) agents ++ pass (some (m + 1)) agents := by
  rw [plan, plan, List.range_succ, List.flatMap_append, List.flatMap_singleton]

theorem mem_plan {passes : Option Nat} {x : Planned} (h : x ∈ plan passes agents) :
    (x.reference, x.agent) ∈ agents := by
  have hpass {iteration : Option Nat} (hx : x ∈ pass iteration agents) :
      (x.reference, x.agent) ∈ agents := by
    obtain ⟨a, ha, rfl⟩ := List.mem_map.mp hx
    exact ha
  cases passes with
  | none => exact hpass h
  | some m =>
    obtain ⟨k, -, hk⟩ := List.mem_flatMap.mp h
    exact hpass hk

/-- Every step is for an agent that some reference names. -/
theorem resolve_of_mem_plan {registry : Registry} {references : List AgentReference}
    (hresolve : resolveAll registry references = .ok agents) {passes : Option Nat} {x : Planned}
    (h : x ∈ plan passes agents) :
    x.reference ∈ references ∧ registry.resolve x.reference = .ok x.agent := by
  obtain ⟨hnames, hnamed⟩ := resolveAll_ok hresolve
  have hmem := mem_plan agents h
  rw [← hnames]
  exact ⟨List.mem_map_of_mem hmem, hnamed _ hmem⟩

theorem live_plan {registry : Registry} {references : List AgentReference}
    (hresolve : resolveAll registry references = .ok agents)
    (hlive : ∀ r ∈ references, registry.resolve r ≠ .ok .crashing) (passes : Option Nat) :
    ∀ x ∈ plan passes agents, x.agent ≠ .crashing := by
  intro x hx hcrash
  obtain ⟨hmem, hnamed⟩ := resolve_of_mem_plan agents hresolve hx
  apply hlive _ hmem
  rw [hnamed, hcrash]

theorem length_plan (passes : Option Nat) :
    (plan passes agents).length = agents.length * passes.getD 1 := by
  cases passes with
  | none => rw [plan, pass, List.length_map, Option.getD_none, Nat.mul_one]
  | some m =>
    induction m with
    | zero => rfl
    | succ m ih =>
      rw [plan_succ, List.length_append, ih, pass, List.length_map]
      exact (Nat.mul_succ _ _).symm

/-- The step at a position is for the sub-agent in turn, in the pass that has been reached. -/
theorem getElem?_plan (passes : Option Nat) {k : Nat}
    (hk : k < agents.length * passes.getD 1) :
    (plan passes agents)[k]? = agents[k % agents.length]?.map fun a =>
      ⟨passes.map fun _ => k / agents.length + 1, a.1, a.2⟩ := by
  cases passes with
  | none =>
    rw [Option.getD_none, Nat.mul_one] at hk
    rw [plan, pass, List.getElem?_map, Nat.mod_eq_of_lt hk]
    rfl
  | some m =>
    induction m with
    | zero => exact absurd hk (Nat.not_lt_zero k)
    | succ m ih =>
      have hlen : (plan (some m) agents).length = agents.length * m := length_plan agents (some m)
      rw [plan_succ]
      by_cases hbefore : k < agents.length * m
      · rw [List.getElem?_append_left (by omega), ih hbefore]
        rfl
      · -- the last pass starts after all the earlier ones
        obtain ⟨j, rfl⟩ := Nat.exists_eq_add_of_le (Nat.le_of_not_lt hbefore)
        have hj : j < agents.length := by
          rw [Option.getD_some, Nat.mul_succ] at hk
          omega
        rw [List.getElem?_append_right (by omega), hlen, Nat.add_sub_cancel_left, pass,
          List.getElem?_map, Nat.mul_add_mod, Nat.mod_eq_of_lt hj, Nat.mul_add_div (by omega),
          Nat.div_eq_of_lt hj, Nat.add_zero]
        rfl

end Plan

end Ensemble.Run
