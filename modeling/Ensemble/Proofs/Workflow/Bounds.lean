import Ensemble.Workflow.Spec

/-!
The bounds that a definition obeys once it has been checked.
-/

namespace Ensemble

/-- A list with a member that fails has a first one. -/
theorem exists_first_not {α : Type} {p : α → Prop} {l : List α} (h : ¬ ∀ x ∈ l, p x) :
    ∃ before x after, l = before ++ x :: after ∧ (∀ y ∈ before, p y) ∧ ¬ p x := by
  induction l with
  | nil => exact absurd nofun h
  | cons a l ih =>
    by_cases ha : p a
    · have hrest : ¬ ∀ x ∈ l, p x := fun hall => h (List.forall_mem_cons.mpr ⟨ha, hall⟩)
      obtain ⟨before, x, after, rfl, hbefore, hx⟩ := ih hrest
      exact ⟨a :: before, x, after, rfl, List.forall_mem_cons.mpr ⟨ha, hbefore⟩, hx⟩
    · exact ⟨[], a, l, rfl, nofun, ha⟩

end Ensemble

namespace Ensemble.Workflow

/-- A composition whose count is within its limit. -/
def Composition.InBounds : Composition → Prop
  | .sequential => True
  | .parallel workers => 1 ≤ workers ∧ workers ≤ maxWorkersLimit.toNat
  | .loop iterations => 1 ≤ iterations ∧ iterations ≤ maxIterationsLimit.toNat

namespace Definition

variable {d : Definition} {defaultWorkers : UInt32}

theorem inBounds_of_composition {c : Composition} {rs : List AgentReference}
    (h : d.composition defaultWorkers = .ok (c, rs)) : c.InBounds := by
  have hcount {n limit : UInt32} (hn : (decide (1 ≤ n) && decide (n ≤ limit)) = true) :
      1 ≤ n.toNat ∧ n.toNat ≤ limit.toNat := by
    rw [Bool.and_eq_true, decide_eq_true_eq, decide_eq_true_eq] at hn
    exact ⟨UInt32.le_iff_toNat_le.mp hn.1, UInt32.le_iff_toNat_le.mp hn.2⟩
  -- a definition with one composition part keeps to that part's limit, every other one is refused
  unfold composition at h
  split at h
  · cases h
    trivial
  · dsimp only at h
    split at h
    · next hn =>
      cases h
      exact hcount hn
    · cases h
  · split at h
    · next hn =>
      cases h
      exact hcount hn
    · cases h
  · cases h
  · cases h

theorem length_of_subAgentsFault? {rs : List AgentReference} (h : subAgentsFault? rs = none) :
    minSubAgents ≤ rs.length ∧ rs.length ≤ maxSubAgents := by
  unfold subAgentsFault? at h
  split at h
  · next hlen =>
    rw [Bool.and_eq_true, decide_eq_true_eq, decide_eq_true_eq] at hlen
    exact hlen
  · cases h

/-- What is taken over from a definition that has been checked. -/
theorem parts_of_validate {spec : Spec} (h : d.validate defaultWorkers = .ok spec) :
    d.composition defaultWorkers = .ok (spec.composition, spec.subAgents) ∧
      subAgentsFault? spec.subAgents = none ∧ readTimeout d.timeout = .ok spec.timeout ∧
        spec.description = d.description := by
  unfold validate at h
  cases hcomposition : d.composition defaultWorkers with
  | error fault => simp only [hcomposition, reduceCtorEq] at h
  | ok part =>
    cases hfault : subAgentsFault? part.2 with
    | some fault => simp only [hcomposition, hfault, reduceCtorEq] at h
    | none =>
      cases htimeout : readTimeout d.timeout with
      | error fault => simp only [hcomposition, hfault, htimeout, reduceCtorEq] at h
      | ok timeout =>
        simp only [hcomposition, hfault, htimeout, Except.ok.injEq] at h
        rw [← h]
        exact ⟨rfl, hfault, rfl, rfl⟩

/-- A definition that has been checked keeps to all its bounds. -/
theorem bounds_of_validate {spec : Spec} (h : d.validate defaultWorkers = .ok spec) :
    spec.composition.InBounds ∧ minSubAgents ≤ spec.subAgents.length ∧
      spec.subAgents.length ≤ maxSubAgents := by
  obtain ⟨hcomposition, hfault, -, -⟩ := parts_of_validate h
  exact ⟨inBounds_of_composition hcomposition, length_of_subAgentsFault? hfault⟩

/-- A timeout only sets when a run is cut off. -/
theorem spec_eq_of_validate {timeout : Option String} {spec spec' : Spec}
    (h : d.validate defaultWorkers = .ok spec)
    (h' : validate { d with timeout } defaultWorkers = .ok spec') :
    spec' = { spec with timeout := spec'.timeout } := by
  obtain ⟨hparts, -, -, hdescription⟩ := parts_of_validate h
  obtain ⟨hparts', -, -, hdescription'⟩ := parts_of_validate h'
  have hsame : (.ok (spec.composition, spec.subAgents) : Except Fault _) =
      .ok (spec'.composition, spec'.subAgents) := hparts.symm.trans hparts'
  obtain ⟨hcomposition, hsubAgents⟩ := Prod.mk.inj (Except.ok.inj hsame)
  rw [hcomposition, hsubAgents, hdescription.trans hdescription'.symm]

end Definition

/-! ## Timeouts -/

theorem pos_of_readBody {body : List Char} {limit : Duration}
    (h : Duration.readBody body = .ok limit) : 0 < limit.nanos := by
  unfold Duration.readBody at h
  split at h
  · cases h
  · split at h
    · unfold Duration.ofTotal at h
      split at h
      · cases h
      · split at h
        · cases h
        · next hpositive =>
          cases h
          exact Nat.pos_of_ne_zero hpositive
    · cases h

theorem pos_of_read {text : String} {limit : Duration} (h : Duration.read text = .ok limit) :
    0 < limit.nanos := by
  unfold Duration.read at h
  split at h
  · cases h
  · cases h
  · exact pos_of_readBody h
  · exact pos_of_readBody h

/-- A timeout is never zero. -/
theorem Definition.pos_of_validate {d : Definition} {defaultWorkers : UInt32} {spec : Spec}
    {limit : Duration} (h : d.validate defaultWorkers = .ok spec)
    (hlimit : spec.timeout = some limit) : 0 < limit.nanos := by
  have hread := (parts_of_validate h).2.2.1
  rw [hlimit] at hread
  unfold readTimeout at hread
  split at hread
  · cases hread
  · split at hread
    · next hread' =>
      cases hread
      exact pos_of_read hread'
    · cases hread

end Ensemble.Workflow
