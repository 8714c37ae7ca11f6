import Ensemble.Proofs.Call.Closing
import Ensemble.Proofs.Run.Shared
import Ensemble.Proofs.Workflow.Bounds
import Ensemble.Run.Basic
import Std.Data.String.ToNat

/-!
The control flow of runs that share one session.  Their invocations take the sub-agents in turn,
pass after pass; only the last one may be unsuccessful or ask to stop, and it decides the status
of the run.  A run that is over too early without such an invocation was interrupted just then, when
the last one was over or before there was any.
-/

namespace Ensemble.Run

/-- The composition of a run on one session: a loop if it has a number of passes. -/
def onOneSession : Option Nat → Workflow.Composition
  | none => .sequential
  | some passes => .loop passes

namespace Outcome

/-- The response with which an invocation closed, as its session tells. -/
def responseTo? (o : Outcome) (i : Invocation) : Option Response :=
  (o.sessions.find? fun s => s.id = i.sessionId).bind fun s => closingResponse? i.id s.drafts

def asksToStop (o : Outcome) (stop : StopRule) (i : Invocation) : Bool :=
  (o.responseTo? i).any stop.stops

end Outcome

/-- How a run on one session goes over its sub-agents, once or in so many passes, when these are the
signals that may interrupt it. -/
structure ControlFlow (signals : Signals) (stop : StopRule) (passes : Option Nat)
    (references : List AgentReference) (o : Outcome) : Prop where
  in_turn : ∀ k i, o.invocations[k]? = some i →
    references[k % references.length]? = some i.agent ∧
      i.iteration = passes.map fun _ => k / references.length + 1
  bounded : o.invocations.length ≤ references.length * passes.getD 1
  goes_on : ∀ i ∈ o.invocations.dropLast,
    i.status = .succeeded ∧ (passes.isSome → o.asksToStop stop i = false)
  succeeded_iff : o.status = .succeeded ↔
    ∃ last, o.invocations.getLast? = some last ∧ last.status = .succeeded ∧
      (o.invocations.length = references.length * passes.getD 1 ∨
        passes.isSome ∧ o.asksToStop stop last = true)
  unsuccessful : ∀ last, o.invocations.getLast? = some last → last.status ≠ .succeeded →
    o.status = last.status
  /-- No time passes between the invocations, and none after the last one. -/
  over_with_last : o.invocations.getLast?.elim (o.tick = 0) fun last =>
    last.finishedAt = some (.ofTick o.tick)
  interrupted : (∀ last, o.invocations.getLast? = some last → last.status = .succeeded) →
    o.status ≠ .succeeded → (o.status = .timedOut ∨ o.status = .cancelled) ∧
      signals.interruption? o.tick = some o.status

/-- The turn of an agent that hangs comes in a run on one session: all that is planned before it
succeeds and does not ask to stop. -/
def MeetsHanging (e : Engine) (ctx : Context) (passes : Option Nat)
    (references : List AgentReference) : Prop :=
  ∃ agents next q, resolveAll e.registry references = .ok agents ∧
    GetsTo ctx e.stop .start (plan passes agents) next q ∧ next.agent.hangs = true

section Course

variable {ctx : Context} {stop : StopRule} {p q : Progress} {steps : List Planned}
  {turns : List Turn} {s : Status}

theorem Course.id_ne (h : Course ctx stop p steps turns q s) {j k : Nat} {t u : Turn} (hjk : j < k)
    (hu : turns[j]? = some u) (ht : turns[k]? = some t) :
    (u.invocation ctx).id ≠ (t.invocation ctx).id := by
  rw [h.id_eq hu, h.id_eq ht]
  intro heq
  rw [String.append_right_inj] at heq
  have hnumber := Nat.repr_inj.mp heq
  omega

/-- In the log of a run the block of a turn ends with its response and the report that closes its
invocation, and nothing before this closes it. -/
theorem Course.exists_drafts_eq (h : Course ctx stop p steps turns q s)
    (hnew : p.session.drafts = []) (hagents : ∀ x ∈ steps, x.agent ≠ .crashing)
    {before after : List Turn} {t : Turn} (hturns : turns = before ++ t :: after) :
    ∃ ds d e, q.session.drafts = ds ++ d :: e :: after.flatMap (Turn.log ctx) ∧
      Call.responseOf d = t.response? ctx ∧ e.closes (t.invocation ctx).id = true ∧
        ∀ x ∈ ds ++ [d], x.closes (t.invocation ctx).id = false := by
  subst hturns
  have hplace : (before ++ t :: after)[before.length]? = some t := by
    rw [List.getElem?_append_right (Nat.le_refl _), Nat.sub_self, List.getElem?_cons_zero]
  -- the turns before have smaller numbers, so their events close other invocations
  have hbefore : ∀ x ∈ before.flatMap (Turn.log ctx), x.closes (t.invocation ctx).id = false := by
    intro x hx
    obtain ⟨u, hu, hxu⟩ := List.mem_flatMap.mp hx
    obtain ⟨j, hj, hju⟩ := List.getElem_of_mem hu
    have huplace : (before ++ t :: after)[j]? = some u := by
      rw [List.getElem?_append_left hj, List.getElem?_eq_getElem hj, hju]
    have hblock := h.turn_block hagents (List.mem_append_left _ hu)
    exact hblock.not_closes (h.id_ne hj huplace hplace) x hxu
  -- in its own block only the last event closes it, and what follows does not matter
  have hblock := h.turn_block hagents (List.mem_append_right _ List.mem_cons_self)
  obtain ⟨rest, d, hlog, hresponse, hopen⟩ := hblock.eq_append
  refine ⟨before.flatMap (Turn.log ctx) ++ rest, d,
    .status (t.invocation ctx).author (t.invocation ctx).id (t.invocation ctx).status, ?_,
    hresponse, ?_, ?_⟩
  · rw [h.drafts_eq, hnew, List.nil_append, List.flatMap_append, List.flatMap_cons, hlog,
      List.append_assoc, List.append_assoc]
    rfl
  · rw [closes_status, hblock.isTerminal, Bool.and_true, decide_eq_true_eq]
  · intro x hx
    rw [List.append_assoc, List.mem_append] at hx
    rcases hx with hx | hx
    · exact hbefore x hx
    · exact hopen x hx _

/-- In the log of a run the response of every turn stands where its invocation closes. -/
theorem Course.closingResponse?_eq (h : Course ctx stop p steps turns q s)
    (hnew : p.session.drafts = []) (hagents : ∀ x ∈ steps, x.agent ≠ .crashing) {t : Turn}
    (ht : t ∈ turns) :
    closingResponse? (t.invocation ctx).id q.session.drafts = t.response? ctx := by
  obtain ⟨before, after, hturns⟩ := List.append_of_mem ht
  obtain ⟨ds, d, e, hdrafts, hresponse, hcloses, hopen⟩ := h.exists_drafts_eq hnew hagents hturns
  rw [List.forall_mem_append, List.forall_mem_singleton] at hopen
  rw [hdrafts, closingResponse?_append hopen.1 hopen.2 hcloses, hresponse]

variable {passes : Option Nat} {agents : List (AgentReference × Agent)} {o : Outcome}

theorem Course.planned_eq (h : Course ctx stop p (plan passes agents) turns q s) {k : Nat}
    {t : Turn} (ht : turns[k]? = some t) : agents[k % agents.length]?.map (fun a =>
      (⟨passes.map fun _ => k / agents.length + 1, a.1, a.2⟩ : Planned)) = some t.planned := by
  -- the turns are the first steps of the plan
  obtain ⟨rest, hrest⟩ := h.planned_prefix
  have hlt : k < turns.length := (List.getElem?_eq_some_iff.mp ht).1
  have hplan : (plan passes agents)[k]? = some t.planned := by
    rw [← hrest, List.getElem?_append_left (by rw [List.length_map]; exact hlt), List.getElem?_map,
      ht]
    rfl
  have hk : k < (plan passes agents).length := (List.getElem?_eq_some_iff.mp hplan).1
  rw [← getElem?_plan agents passes (by rw [← length_plan]; exact hk)]
  exact hplan

theorem Course.responseTo?_eq (h : Course ctx stop p steps turns q s)
    (hagents : ∀ x ∈ steps, x.agent ≠ .crashing) (hnew : p.session.drafts = [])
    (hsessions : o.sessions = [q.session]) {t : Turn} (ht : t ∈ turns) :
    o.responseTo? (t.invocation ctx) = t.response? ctx := by
  rw [Outcome.responseTo?, hsessions, h.sessionId_eq ht, List.find?_singleton, decide_eq_true rfl,
    if_pos rfl, Option.bind_some, h.closingResponse?_eq hnew hagents ht]

theorem Course.asksToStop_eq (h : Course ctx stop p (plan passes agents) turns q s)
    (hagents : ∀ x ∈ plan passes agents, x.agent ≠ .crashing) (hnew : p.session.drafts = [])
    (hsessions : o.sessions = [q.session]) {t : Turn} (ht : t ∈ turns) :
    t.asksToStop ctx stop = (passes.isSome && o.asksToStop stop (t.invocation ctx)) := by
  -- the log tells the response of the turn, and the plan whether the run is a loop
  obtain ⟨k, hk, hkt⟩ := List.getElem_of_mem ht
  have hget : turns[k]? = some t := by rw [List.getElem?_eq_getElem hk, hkt]
  have hloop : t.planned.iteration.isSome = passes.isSome := by
    obtain ⟨a, -, ha⟩ := Option.map_eq_some_iff.mp (h.planned_eq hget)
    rw [← ha, Option.isSome_map]
  rw [Turn.asksToStop, Outcome.asksToStop, h.responseTo?_eq hagents hnew hsessions ht, hloop]

theorem Course.controlFlow (h : Course ctx stop p (plan passes agents) turns q s)
    (hagents : ∀ x ∈ plan passes agents, x.agent ≠ .crashing) (htick : p.tick = 0)
    (hinvocations : p.invocations = []) (hdrafts : p.session.drafts = [])
    (hpos : 0 < agents.length * passes.getD 1) (ho : q.finish s = .finished o) :
    ControlFlow ctx.signals stop passes (agents.map Prod.fst) o := by
  -- the record lists the invocations of the turns, so all is said by the turns and their verdict
  obtain ⟨hstatus, hsessions, hinvs⟩ := h.outcome_eq hinvocations ho
  have hover : o.tick = q.tick := by
    cases ho
    rfl
  have hasks {t : Turn} (ht : t ∈ turns) := h.asksToStop_eq hagents hdrafts hsessions ht
  have hlast : o.invocations.getLast? = turns.getLast?.map (Turn.invocation ctx) := by
    rw [hinvs, List.getLast?_map]
  have hlen : o.invocations.length = turns.length := by rw [hinvs, List.length_map]
  have hverdict := h.verdict
  rw [length_plan] at hverdict
  constructor
  case in_turn =>
    intro k i hi
    rw [hinvs, List.getElem?_map] at hi
    obtain ⟨t, ht, rfl⟩ := Option.map_eq_some_iff.mp hi
    obtain ⟨a, ha, hplanned⟩ := Option.map_eq_some_iff.mp (h.planned_eq ht)
    obtain ⟨tick, s, r, hclose⟩ := h.closed t (List.mem_of_getElem? ht)
    rw [Turn.invocation_of_close hclose, List.length_map, List.getElem?_map, ha]
    simp only [Invocation.agent_transition, Invocation.iteration_transition, Turn.pending,
      Progress.nextInvocation, ← hplanned, Option.map_some, and_self]
  case bounded =>
    have hle := h.planned_prefix.length_le
    rw [List.length_map, length_plan] at hle
    rw [hlen, List.length_map]
    exact hle
  case goes_on =>
    intro i hi
    rw [hinvs, ← List.map_dropLast] at hi
    obtain ⟨t, ht, rfl⟩ := List.mem_map.mp hi
    obtain ⟨hsucceeded, hgo⟩ := h.goesOn_dropLast t ht
    rw [hasks (List.dropLast_subset _ ht), Bool.and_eq_false_imp] at hgo
    exact ⟨hsucceeded, hgo⟩
  case succeeded_iff =>
    rw [hstatus, hverdict.succeeded_iff hpos, hlen, hlast, List.length_map]
    constructor
    · rintro ⟨t, ht, hsucceeded, hend⟩
      rw [hasks (List.mem_of_getLast? ht), Bool.and_eq_true] at hend
      exact ⟨_, by rw [ht, Option.map_some], hsucceeded, hend⟩
    · rintro ⟨last, hl, hsucceeded, hend⟩
      obtain ⟨t, ht, rfl⟩ := Option.map_eq_some_iff.mp hl
      rw [← Bool.and_eq_true, ← hasks (List.mem_of_getLast? ht)] at hend
      exact ⟨t, ht, hsucceeded, hend⟩
  case unsuccessful =>
    intro last hl hfailed
    rw [hlast] at hl
    obtain ⟨t, ht, rfl⟩ := Option.map_eq_some_iff.mp hl
    rw [hstatus]
    exact hverdict.unsuccessful ht hfailed
  case over_with_last =>
    have hend := h.over_with_last
    rw [hlast, hover]
    cases hturn : turns.getLast? with
    | none =>
      rw [hturn, htick] at hend
      exact hend
    | some t =>
      rw [hturn] at hend
      exact hend
  case interrupted =>
    intro hall hs
    have hlastTurn (t : Turn) (ht : turns.getLast? = some t) :
        (t.invocation ctx).status = .succeeded := hall _ (by rw [hlast, ht, Option.map_some])
    rw [hstatus] at hs
    have hinterrupt := hverdict.cut_short hlastTurn hs
    rw [hstatus, hover]
    exact ⟨Signals.interruption?_cases hinterrupt, hinterrupt⟩

end Course

theorem ofSpec_onOneSession (e : Engine) (ctx : Context) {spec : Workflow.Spec}
    {passes : Option Nat} (hone : spec.composition = onOneSession passes) :
    ofSpec e ctx spec = shared ctx e.registry e.stop passes spec.subAgents := by
  rw [ofSpec, hone]
  cases passes <;> rfl

/-- A run goes over its sub-agents one after the other, or it has a branch for each. -/
theorem ofSpec_cases (e : Engine) (ctx : Context) (spec : Workflow.Spec) :
    (∃ passes, spec.composition = onOneSession passes ∧
        ofSpec e ctx spec = shared ctx e.registry e.stop passes spec.subAgents) ∨
      ∃ workers, spec.composition = .parallel workers ∧
        ofSpec e ctx spec = sideBySide ctx e.registry workers spec.subAgents := by
  cases hcomposition : spec.composition with
  | sequential => exact Or.inl ⟨none, rfl, ofSpec_onOneSession e ctx hcomposition⟩
  | loop n => exact Or.inl ⟨some n, rfl, ofSpec_onOneSession e ctx hcomposition⟩
  | parallel workers => exact Or.inr ⟨workers, rfl, by rw [ofSpec, hcomposition]⟩

theorem steps_pos {d : Workflow.Definition} {defaultWorkers : UInt32} {spec : Workflow.Spec}
    {passes : Option Nat} (hvalid : d.validate defaultWorkers = .ok spec)
    (hone : spec.composition = onOneSession passes) :
    0 < spec.subAgents.length * passes.getD 1 := by
  -- there are sub-agents, and a loop makes at least one pass
  obtain ⟨hbounds, hlen, -⟩ := Workflow.Definition.bounds_of_validate hvalid
  have hagents : 0 < spec.subAgents.length := Nat.lt_of_lt_of_le (by decide) hlen
  rw [hone] at hbounds
  cases passes with
  | none => exact Nat.mul_pos hagents Nat.one_pos
  | some m => exact Nat.mul_pos hagents hbounds.1

/-- Sequential runs and loops of agents that do not crash keep to the control flow of their
composition, unless the turn of one that hangs comes and nothing can interrupt it; and no stop rule
matters to a sequential run. -/
theorem ofSpec_controlFlow {d : Workflow.Definition} {defaultWorkers : UInt32}
    {spec : Workflow.Spec} {passes : Option Nat} (e : Engine) (ctx : Context)
    (hvalid : d.validate defaultWorkers = .ok spec)
    (hone : spec.composition = onOneSession passes)
    (hagents : ∀ r ∈ spec.subAgents, ∃ a, e.registry.resolve r = .ok a ∧ a ≠ .crashing) :
    ((∃ o, ofSpec e ctx spec = .finished o ∧
          ControlFlow ctx.signals e.stop passes spec.subAgents o) ∨
        ofSpec e ctx spec = .hang ∧ ctx.signals = {} ∧ MeetsHanging e ctx passes spec.subAgents) ∧
      (passes = none → ∀ stop, ofSpec { e with stop := stop } ctx spec = ofSpec e ctx spec) := by
  obtain ⟨agents, hresolve⟩ := exists_resolveAll fun r hr =>
    (hagents r hr).imp fun _ ha => ha.1
  have hnames := (resolveAll_ok hresolve).1
  have hrun (stop : StopRule) : ofSpec { e with stop := stop } ctx spec =
      runPlan ctx stop .start (plan passes agents) := by
    rw [ofSpec_onOneSession _ _ hone, shared_of_resolved hresolve]
  have hlive : ∀ x ∈ plan passes agents, x.agent ≠ .crashing := by
    apply live_plan agents hresolve
    intro r hr hcrash
    obtain ⟨a, ha, hne⟩ := hagents r hr
    cases ha.symm.trans hcrash
    exact hne rfl
  have hpos : 0 < agents.length * passes.getD 1 := by
    have hpos := steps_pos hvalid hone
    rw [← hnames, List.length_map] at hpos
    exact hpos
  constructor
  · rw [show ofSpec e ctx spec = _ from hrun e.stop]
    rcases runPlan_ends ctx e.stop hlive .start with ⟨o, ho⟩ | ⟨hhang, hcalm, next, q, hmeets⟩
    · obtain ⟨turns, q, s, hcourse, hfinish⟩ := course_of_runPlan ho
      have hflow := hcourse.controlFlow hlive rfl rfl rfl hpos hfinish
      rw [hnames] at hflow
      exact Or.inl ⟨o, ho, hflow⟩
    · exact Or.inr ⟨hhang, hcalm, agents, next, q, hresolve, hmeets⟩
  · rintro rfl stop
    have hsequential : ∀ x ∈ plan none agents, x.iteration = none := by
      intro x hx
      obtain ⟨a, -, rfl⟩ := List.mem_map.mp hx
      rfl
    rw [hrun stop, show ofSpec e ctx spec = _ from hrun e.stop]
    exact runPlan_stop hsequential stop _

/-- A loop whose second agent asks to stop at once, under a timeout. -/
theorem ofSpec_controlFlow_exit :
    let references : List AgentReference := [{ name := "a" }, { name := "b" }]
    let d : Workflow.Definition :=
      { timeout := some "1s", loop := some { subAgents := references, maxIterations := 3 } }
    let spec : Workflow.Spec :=
      { description := none, timeout := some ⟨1000000000⟩, composition := .loop 3,
        subAgents := references }
    let exit : Replay := { script := [{ toolCalls := [{ index := 0, name := some "exit_loop" }] }] }
    let e : Engine :=
      { registry := { agents := [("a", .replay (.ofText "hi")), ("b", .replay exit)] } }
    let ctx : Context := { task := "t", signals := signals spec none }
    d.validate 10 = .ok spec ∧ spec.composition = onOneSession (some 3) ∧
      (∀ r ∈ spec.subAgents, ∃ a, e.registry.resolve r = .ok a ∧ a ≠ .crashing) ∧
      ∃ o, ofSpec e ctx spec = .finished o ∧
        ControlFlow ctx.signals e.stop (some 3) spec.subAgents o ∧
          o.status = .succeeded ∧ o.invocations.map (·.author) = ["a", "b"] := by
  intro references d spec exit e ctx
  have hvalid : d.validate 10 = .ok spec := by decide +kernel
  have hone : spec.composition = onOneSession (some 3) := rfl
  have hagents : ∀ r ∈ spec.subAgents, ∃ a, e.registry.resolve r = .ok a ∧ a ≠ .crashing := by
    have ha : e.registry.resolve { name := "a" } = .ok (.replay (.ofText "hi")) := by
      decide +kernel
    have hb : e.registry.resolve { name := "b" } = .ok (.replay exit) := by decide +kernel
    exact List.forall_mem_cons.mpr ⟨⟨_, ha, nofun⟩, List.forall_mem_singleton.mpr ⟨_, hb, nofun⟩⟩
  have hshown : (ofSpec e ctx spec).outcome?.map
      (fun o => (o.status, o.invocations.map (·.author))) = some (.succeeded, ["a", "b"]) := by
    decide +kernel
  refine ⟨hvalid, hone, hagents, ?_⟩
  rcases (ofSpec_controlFlow e ctx hvalid hone hagents).1 with ⟨o, ho, hflow⟩ | ⟨-, hcalm, -⟩
  · rw [ho] at hshown
    obtain ⟨hstatus, hauthors⟩ := Prod.mk.inj (Option.some.inj hshown)
    exact ⟨o, ho, hflow, hstatus, hauthors⟩
  · cases hcalm

end Ensemble.Run
