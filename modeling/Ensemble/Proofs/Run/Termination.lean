import Ensemble.Proofs.Run.Standing
import Mathlib.Algebra.GroupWithZero.Nat

/-!
The end of runs side by side.  Every action uses up some of the work that its branch has left, so a
run comes to a point at which no branch can act any more; then all of them have ended, unless
somebody waits and there is no signal that could ever interrupt the run.
-/

namespace Ensemble

/-! ## The length of a call -/

theorem Replay.length_arrived_listen_le (r : Replay) (signals : Signals) (now : Nat)
    (ds : List Delta) : (r.listen signals now ds).arrived.length ≤ ds.length := by
  induction ds generalizing now with
  | nil => exact Nat.le_refl 0
  | cons d ds ih =>
    rw [listen]
    cases signals.firstBy? (now + r.delay) with
    | some first => exact Nat.zero_le _
    | none => exact Nat.succ_le_succ (ih _)

theorem Replay.length_arrived_call_le (r : Replay) (signals : Signals) (stream : Bool) (now : Nat) :
    (r.call signals stream now).arrived.length ≤ r.script.length + 1 := by
  unfold call
  cases r.rejection with
  | some e => exact Nat.zero_le _
  | none =>
    refine Nat.le_trans (r.length_arrived_listen_le signals now _) ?_
    unfold deltas
    cases stream with
    | true => exact Nat.le_succ _
    | false => exact Nat.succ_le_succ (Nat.zero_le _)

theorem Call.length_traceOf_le (author id : String) (now : Nat) (h : Hearing) (called : Bool) :
    (traceOf author id now h called).drafts.length ≤ h.arrived.length + 3 := by
  obtain ⟨arrived, e⟩ := h
  have hpartial : (partialDrafts author arrived).length ≤ arrived.length :=
    List.length_filterMap_le _ _
  cases e <;> simp only [traceOf, ending, closing, List.length_append, List.length_cons,
    List.length_nil] <;> omega

namespace Run.Branch

/-- The number of the deltas that the agent of a branch may send one by one. -/
def scriptLength (b : Branch) : Nat :=
  match b.agent with
  | .ok (.replay r) => r.script.length
  | _ => 0

theorem length_trace_le {b : Branch} {agent : Agent} (ctx : Context) (hagent : b.agent = .ok agent)
    (now : Nat) : (Step.trace ctx agent b.invocation now).drafts.length ≤ b.scriptLength + 4 := by
  unfold Step.trace Call.trace
  cases ctx.signals.interrupt? now with
  | some why => exact Nat.le_trans (Call.length_traceOf_le _ _ _ _ _) (by simp)
  | none =>
    cases agent with
    | crashing => exact Nat.le_add_left _ _
    | replay r =>
      have hlength : b.scriptLength = r.script.length := by rw [scriptLength, hagent]
      have hcall := r.length_arrived_call_le ctx.signals ctx.stream now
      refine Nat.le_trans (Call.length_traceOf_le _ _ _ _ _) ?_
      omega

/-- What a branch has left to do, counting the way to its slot. -/
def budget (b : Branch) : Nat :=
  match b.phase with
  | .fresh => b.scriptLength + 8
  | .waiting => b.scriptLength + 7
  | .granted => b.scriptLength + 6
  | .calling rest _ => rest.length + 1
  | .ended => 0

theorem budget_eq_work {b : Branch} (hphase : b.phase = .fresh) : b.budget = b.work := by
  rw [budget, hphase, work, hphase, scriptLength]
  cases b.agent with
  | error e => rfl
  | ok agent => cases agent <;> rfl

/-- Every move of a branch uses up some of what it has left to do. -/
theorem Moves.budget_lt {ctx : Context} {now : Nat} {b b' : Branch} (h : b.Moves ctx now b') :
    b'.budget < b.budget := by
  have hpos : b.phase ≠ .ended → 0 < b.budget := by
    intro hgoing
    unfold budget
    cases hphase : b.phase <;> simp_all
  cases h with
  | failed hphase => exact hpos (by rw [hphase]; nofun)
  | refused hphase => exact hpos (by rcases hphase with h | h <;> rw [h] <;> nofun)
  | left hphase => exact hpos (by rw [hphase]; nofun)
  | queued hphase =>
    simp only [budget, hphase]
    exact Nat.lt_succ_self _
  | granted hphase =>
    simp only [budget, hphase]
    exact Nat.lt_succ_self _
  | @began agent hphase hagent hcalm =>
    have hlength := length_trace_le ctx hagent now
    have hbegun : (b.begin ctx agent now).budget =
      (Step.trace ctx agent b.invocation now).drafts.length + 1 := rfl
    have hleft : b.scriptLength + 6 ≤ b.budget := by
      unfold budget
      rcases hphase with hphase | hphase
      · rw [hphase]
        exact Nat.add_le_add_left (by decide) _
      · rw [hphase]
    omega
  | added hphase =>
    simp only [budget, hphase, List.length_cons]
    omega
  | closed hphase => exact hpos (by rw [hphase]; nofun)
  | crashed hphase => exact hpos (by rw [hphase]; nofun)

end Run.Branch

namespace Run.Fleet

variable {ctx : Context} {f g : Fleet}

def budget (f : Fleet) : Nat :=
  (f.branches.map Branch.budget).sum

theorem sum_map_set {branches : List Branch} {position : Nat} {b : Branch}
    (hb : branches[position]? = some b) (b' : Branch) :
    ((branches.set position b').map Branch.budget).sum + b.budget =
      (branches.map Branch.budget).sum + b'.budget := by
  induction branches generalizing position with
  | nil => cases hb
  | cons first rest ih =>
    cases position with
    | zero =>
      cases hb
      simp only [List.set_cons_zero, List.map_cons, List.sum_cons]
      omega
    | succ position =>
      have hrest := ih hb
      simp only [List.set_cons_succ, List.map_cons, List.sum_cons]
      omega

theorem budget_update_lt {position : Nat} {b b' : Branch} (hb : f.branches[position]? = some b)
    (hmove : b.Moves ctx f.now b') : (f.update position b').budget < f.budget := by
  have hsum := sum_map_set hb b'
  have hlt := hmove.budget_lt
  unfold budget update
  dsimp only
  omega

theorem Move.budget_lt (h : f.Move ctx g) (horderly : f.Orderly 0) : g.budget < f.budget := by
  obtain ⟨tick, position, b, b', -, -, hb, hmove, hshift⟩ := h.shift horderly
  have hlt : (update { f with now := tick } position b').budget < f.budget :=
    budget_update_lt (f := { f with now := tick }) hb hmove
  cases hshift with
  | kept => exact hlt
  | joined => exact hlt
  | left => exact hlt
  | took => exact hlt
  | gaveBack hslot hwaiting' hslot' =>
    have howed := (horderly.withNow tick).update_of_gaveBack hb hmove hslot hwaiting' hslot'
    have hupdate : ∀ (g : Fleet) (position : Nat) (b b' : Branch), g.budget < f.budget →
        g.branches[position]? = some b → b.Moves ctx g.now b' →
          (g.update position b').budget < f.budget :=
      fun _ _ _ _ h hb hmove => (budget_update_lt hb hmove).trans h
    exact Orderly.preserves_release (P := fun g => g.budget < f.budget) (fun _ _ h => h) hupdate
      howed hlt

variable (ctx) in
/-- A run that may take as many actions as there is work left goes on until none is possible. -/
theorem soonest?_advance {n : Nat} (horderly : f.Orderly 0) (hn : f.budget ≤ n) :
    (advance ctx n f).soonest? ctx = none := by
  induction n generalizing f with
  | zero =>
    cases hnext : f.soonest? ctx with
    | none => exact hnext
    | some next =>
      have hlt := Move.budget_lt (.turn (dueAt_of_soonest? hnext)) horderly
      omega
  | succ n ih =>
    unfold advance
    cases hnext : f.soonest? ctx with
    | none => exact hnext
    | some next =>
      have hmove : f.Move ctx _ := .turn (dueAt_of_soonest? hnext)
      have hlt := hmove.budget_lt horderly
      exact ih (hmove.orderly horderly) (by omega)

theorem budget_start (registry : Registry) (workers : Nat) (references : List AgentReference) :
    (start registry workers references).budget = (start registry workers references).work := by
  have hwork (branches : List Branch) (hfresh : ∀ b ∈ branches, b.phase = .fresh) :
      (branches.map Branch.budget).sum =
        branches.foldr (fun b total => b.work + total) 0 := by
    induction branches with
    | nil => rfl
    | cons b branches ih =>
      rw [List.forall_mem_cons] at hfresh
      rw [List.map_cons, List.sum_cons, List.foldr_cons, Branch.budget_eq_work hfresh.1,
        ih hfresh.2]
  refine hwork _ fun b hb => ?_
  obtain ⟨i, hi, rfl⟩ := List.mem_mapIdx.mp hb
  rfl

end Run.Fleet

namespace Run

variable {ctx : Context} {registry : Registry} {workers : Nat} {references : List AgentReference}

/-- A branch that can never act again has ended, waits in the queue for a signal that never comes,
or makes a call without an end. -/
theorem Branch.Standing.cases_of_dueAt {now : Nat} {b : Branch} (h : b.Standing ctx now)
    (hdue : b.dueAt ctx.signals now = none) :
    b.isEnded = true ∨ (b.isWaiting = true ∧ ctx.signals = {}) ∨
      ∃ agent start, b.Calls ctx now agent start [] .never := by
  unfold dueAt at hdue
  cases hphase : b.phase with
  | fresh => simp only [hphase, reduceCtorEq] at hdue
  | granted => simp only [hphase, reduceCtorEq] at hdue
  | waiting =>
    simp only [hphase, Option.map_eq_none_iff] at hdue
    exact Or.inr (Or.inl ⟨isWaiting_iff.mpr hphase, Signals.first?_eq_none_iff.mp hdue⟩)
  | calling rest close =>
    obtain ⟨agent, begun, hcalls⟩ := h.calls hphase
    rw [hphase] at hdue
    cases rest with
    | cons next rest => cases hdue
    | nil =>
      cases close with
      | closed tick s r => cases hdue
      | crashed tick => cases hdue
      | never => exact Or.inr (Or.inr ⟨agent, begun, hcalls⟩)
  | ended => exact Or.inl (by rw [isEnded, hphase])

/-- When no branch can act, all have ended, or somebody waits for a signal that never comes. -/
theorem Fleet.Reaches.all_isEnded {f : Fleet}
    (h : Reaches ctx (start registry workers references) f) (hstop : f.soonest? ctx = none) :
    f.branches.all Branch.isEnded = true ∨ ctx.signals = {} := by
  by_cases hsignals : ctx.signals = {}
  · exact Or.inr hsignals
  · refine Or.inl (List.all_eq_true.mpr fun b hb => ?_)
    have hdue := dueAt_eq_none_of_soonest? hstop hb
    rcases (h.standing hb).cases_of_dueAt hdue with hended | ⟨-, hnone⟩ | ⟨agent, start, hcalls⟩
    · exact hended
    · exact absurd hnone hsignals
    · exact absurd (Call.close_trace_eq_never_iff.mp hcalls.close).2 hsignals

/-- A run side by side finishes, or it waits for ever and nothing could have interrupted it. -/
theorem sideBySide_cases (ctx : Context) (registry : Registry) (workers : Nat)
    (references : List AgentReference) :
    (∃ o, sideBySide ctx registry workers references = .finished o) ∨
      (sideBySide ctx registry workers references = .hang ∧ ctx.signals = {}) := by
  have hstop := Fleet.soonest?_advance ctx (Fleet.orderly_start registry workers references)
    (Nat.le_of_eq (Fleet.budget_start registry workers references))
  have hends := (Fleet.reaches_advance ctx _ _).all_isEnded hstop
  unfold sideBySide
  dsimp only
  split
  · exact Or.inl ⟨_, rfl⟩
  · next hunfinished => exact Or.inr ⟨rfl, hends.resolve_left hunfinished⟩

end Run

end Ensemble
