import Ensemble.Proofs.Run.ControlFlow
import Ensemble.Proofs.Run.Gathering
import Ensemble.Proofs.Run.Shared

/-!
Records of runs that have ended.  When all agents come to an end, every run ends with a record that
can be read, and shows the status of that record from then on; unless it goes over its sub-agents
one after the other and one of them crashes, for then the whole run is gone and keeps being shown as
running.
-/

namespace Ensemble

/-! ## Agents that come to an end -/

/-- An agent whose calls all end, be it by a crash of the task that makes them. -/
def Agent.Ends (a : Agent) (signals : Signals) (stream : Bool) : Prop :=
  ∀ author id now, (Call.trace a signals stream author id now).close ≠ .never

theorem Agent.ends_iff {a : Agent} {signals : Signals} {stream : Bool} :
    a.Ends signals stream ↔ (a.hangs = true → signals ≠ {}) := by
  simp only [Ends, ne_eq, Call.close_trace_eq_never_iff, not_and, forall_const]

/-- Where no agent hangs, all calls end. -/
theorem Registry.ends_of_resolve {g : Registry} (hnone : ∀ p ∈ g.agents, p.2.hangs = false)
    {r : AgentReference} {a : Agent} (h : g.resolve r = .ok a) (signals : Signals)
    (stream : Bool) : a.Ends signals stream := by
  unfold resolve at h
  split at h
  · next a' hget =>
    cases h
    rw [Agent.ends_iff, hnone _ (Ordered.mem_of_get? hget)]
    nofun
  · cases h

namespace Call

variable {agent : Agent} {signals : Signals} {stream : Bool} {author id : String}

/-- A call that is made before anything interrupts crashes at once, or never. -/
theorem close_eq_crashed_iff {now tick : Nat} (hcalm : signals.interrupt? now = none) :
    (trace agent signals stream author id now).close = .crashed tick ↔
      agent = .crashing ∧ now = tick := by
  constructor
  · intro h
    have hagent := eq_crashing_of_close h
    subst hagent
    rw [trace, hcalm] at h
    exact ⟨rfl, Close.crashed.inj h⟩
  · rintro ⟨rfl, rfl⟩
    rw [trace, hcalm]

end Call

/-! ## The status that is shown -/

/-- What is shown after a report: a final status stays. -/
def Status.become (shown report : Status) : Status :=
  if shown.isTerminal then shown else report

namespace Run

namespace Ending

/-- What the task of a run reports of it: that it is running, and at last its status, if it comes to
that. -/
def reports : Ending → List (Nat × Status)
  | .finished o => [(0, .running), (o.tick, o.status)]
  | .aborted _ => [(0, .running)]
  | .hang => [(0, .running)]

/-- The status that whoever started a run sees at a tick, before anything happens at that tick. -/
def shownAt (e : Ending) (tick : Nat) : Status :=
  ((e.reports.filter fun r => r.1 < tick).map Prod.snd).foldl Status.become .pending

/-- From some tick on, the status that is shown is always this one. -/
def SettlesAt (e : Ending) (s : Status) : Prop :=
  ∃ tick, ∀ later, tick ≤ later → e.shownAt later = s

theorem shownAt_finished (o : Outcome) (tick : Nat) : (finished o).shownAt tick =
    if tick = 0 then .pending else if o.tick < tick then o.status else .running := by
  unfold shownAt reports
  by_cases hzero : tick = 0
  · simp [hzero]
  · have hpos : 0 < tick := Nat.pos_of_ne_zero hzero
    by_cases hover : o.tick < tick
    · simp [hzero, hpos, hover, Status.become, Status.isTerminal]
    · simp [hzero, hpos, hover, Status.become, Status.isTerminal]

theorem shownAt_aborted (t tick : Nat) : (aborted t).shownAt tick =
    if tick = 0 then .pending else .running := by
  unfold shownAt reports
  by_cases hzero : tick = 0
  · simp [hzero]
  · simp [hzero, Nat.pos_of_ne_zero hzero, Status.become, Status.isTerminal]

theorem settlesAt_finished (o : Outcome) : (finished o).SettlesAt o.status := by
  refine ⟨o.tick + 1, fun later hlater => ?_⟩
  rw [shownAt_finished, if_neg (by omega), if_pos (by omega)]

theorem settlesAt_aborted (t : Nat) : (aborted t).SettlesAt .running := by
  refine ⟨1, fun later hlater => ?_⟩
  rw [shownAt_aborted, if_neg (by omega)]

theorem SettlesAt.unique {e : Ending} {s t : Status} (hs : e.SettlesAt s) (ht : e.SettlesAt t) :
    s = t := by
  obtain ⟨i, hi⟩ := hs
  obtain ⟨j, hj⟩ := ht
  rw [← hi (max i j) (Nat.le_max_left i j), hj (max i j) (Nat.le_max_right i j)]

end Ending

/-- While its end is awaited, a run shows the status that its record tells of. -/
theorem statusAt_eq_shownAt {spec : Workflow.Spec} {task : String} {signals : Signals}
    {ending : Ending} {r : Run} (h : record spec task signals ending = .ok r) (tick : Nat) :
    r.statusAt tick = ending.shownAt tick := by
  cases ending with
  | finished o =>
    rw [record] at h
    split at h
    · cases h
      exact (Ending.shownAt_finished o tick).symm
    · cases h
  | aborted t => cases h
  | hang => cases h

/-! ## Records that can be read -/

/-- A record that tells how the run ended, and whose sessions hold all the events that were added
and nothing else. -/
structure Outcome.Readable (o : Outcome) : Prop where
  terminal : o.status.isTerminal = true
  owned : ∀ e ∈ o.events, ∃ s ∈ o.sessions, s.id = e.sessionId ∧ e.event ∈ s.events
  complete : ∀ s ∈ o.sessions, RunEvent.eventsOf s.id o.events = s.events

/-- It is enough that every event has a session. -/
theorem Outcome.readable_of_complete {o : Outcome} (hterminal : o.status.isTerminal = true)
    (howned : ∀ e ∈ o.events, ∃ s ∈ o.sessions, s.id = e.sessionId)
    (hcomplete : ∀ s ∈ o.sessions, RunEvent.eventsOf s.id o.events = s.events) : o.Readable where
  terminal := hterminal
  owned := by
    intro e he
    obtain ⟨s, hs, hid⟩ := howned e he
    refine ⟨s, hs, hid, ?_⟩
    rw [← hcomplete s hs]
    refine List.mem_map_of_mem (List.mem_filter.mpr ⟨he, ?_⟩)
    exact decide_eq_true hid.symm
  complete := hcomplete

variable {ctx : Context} {stop : StopRule} {registry : Registry} {references : List AgentReference}

/-! ### One after the other -/

theorem Course.isTerminal {p q : Progress} {steps : List Planned} {turns : List Turn} {s : Status}
    (h : Course ctx stop p steps turns q s) : s.isTerminal = true := by
  induction h with
  | finished => rfl
  | interrupted hinterrupt =>
    rcases Signals.interruption?_cases hinterrupt with rfl | rfl <;> rfl
  | ended _ hclose => exact Call.isTerminal_of_close hclose
  | more _ _ _ _ ih => exact ih

theorem Progress.readable_of_finish {p : Progress} {s : Status} {o : Outcome}
    (h : p.finish s = .finished o) (hterminal : s.isTerminal = true) : o.Readable := by
  cases h
  refine Outcome.readable_of_complete hterminal ?_ ?_
  · intro e he
    obtain ⟨_, -, rfl⟩ := List.mem_map.mp he
    exact ⟨p.session, List.mem_singleton_self _, rfl⟩
  · intro s hs
    rw [List.mem_singleton.mp hs]
    show RunEvent.eventsOf p.session.id (p.session.events.map fun e => ⟨p.session.id, e⟩) = _
    rw [RunEvent.eventsOf_events, if_pos rfl]

theorem readable_of_shared {passes : Option Nat} {o : Outcome}
    (h : shared ctx registry stop passes references = .finished o) : o.Readable := by
  rcases shared_cases h with ⟨r, e, -, rfl⟩ | ⟨agents, turns, q, s, -, hcourse, hfinish⟩
  · have hfinish : Progress.finish { Progress.start with
        session := Progress.start.session.append 0 (.error r.qualifiedName e.message) } .failed =
          .finished (.ofUnresolved r e) := rfl
    exact Progress.readable_of_finish hfinish rfl
  · exact Progress.readable_of_finish hfinish hcourse.isTerminal

/-! ### Side by side -/

theorem Fleet.isTerminal_status (f : Fleet) (signals : Signals) :
    (f.status signals).isTerminal = true := by
  unfold status
  split
  · rfl
  · split
    · rfl
    · split <;> rfl

theorem MayEndWith.readable {workers : Nat} {o : Outcome}
    (h : MayEndWith ctx registry workers references o) : o.Readable := by
  obtain ⟨f, hreach, -, rfl⟩ := h
  refine Outcome.readable_of_complete (f.isTerminal_status ctx.signals) ?_ ?_
  · intro e he
    obtain ⟨b, hb, hid⟩ := hreach.fed.owned e he
    exact ⟨b.session, List.mem_map_of_mem hb, hid⟩
  · intro s hs
    obtain ⟨b, hb, rfl⟩ := List.mem_map.mp hs
    obtain ⟨i, hi⟩ := List.getElem?_of_mem hb
    exact (hreach.fed.sessions i b hi).2

/-- When no branch can act and all agents come to an end, nobody holds a slot any more, so nobody
waits for one either. -/
theorem Fleet.Reaches.all_isEnded_of_ends {workers : Nat} {f : Fleet}
    (h : Reaches ctx (start registry workers references) f) (hstop : f.soonest? ctx = none)
    (hends : ∀ r ∈ references, ∀ a, registry.resolve r = .ok a → a.Ends ctx.signals ctx.stream) :
    f.branches.all Branch.isEnded = true := by
  have hstuck : ∀ b ∈ f.branches, b.isEnded = true ∨ b.isWaiting = true := by
    intro b hb
    have hdue := dueAt_eq_none_of_soonest? hstop hb
    rcases (h.standing hb).cases_of_dueAt hdue with hended | ⟨hwaiting, -⟩ | ⟨agent, start, hcalls⟩
    · exact Or.inl hended
    · exact Or.inr hwaiting
    · -- the call would go on for ever
      obtain ⟨i, r, hr, -, hfor⟩ := h.exists_isFor hb
      have hagent := hfor.agent.symm.trans hcalls.resolved
      exact absurd hcalls.close (hends r hr agent hagent _ _ _)
  have hidle : f.branches.countP Branch.holdsSlot = 0 := by
    refine List.countP_eq_zero.mpr fun b hb hslot => ?_
    rcases hstuck b hb with hended | hwaiting
    · rw [Branch.not_isEnded_of_holdsSlot hslot] at hended
      cases hended
    · rw [Branch.not_isWaiting_of_holdsSlot hslot] at hwaiting
      cases hwaiting
  have horderly := h.orderly (orderly_start registry workers references)
  have hempty : f.pool.waiting = [] := by
    have hsize : f.pool.size = max workers 1 :=
      h.size_eq (orderly_start registry workers references)
    have hbalance := horderly.balance
    exact horderly.eager.resolve_left (by omega)
  refine List.all_eq_true.mpr fun b hb => (hstuck b hb).resolve_right ?_
  rw [horderly.isWaiting_eq_of_nil hempty hb]
  exact Bool.false_ne_true

theorem sideBySide_finishes (workers : Nat)
    (hends : ∀ r ∈ references, ∀ a, registry.resolve r = .ok a → a.Ends ctx.signals ctx.stream) :
    ∃ o, sideBySide ctx registry workers references = .finished o := by
  have hstop := Fleet.soonest?_advance ctx (Fleet.orderly_start registry workers references)
    (Nat.le_of_eq (Fleet.budget_start registry workers references))
  exact ⟨_, sideBySide_of_ended ((Fleet.reaches_advance ctx _ _).all_isEnded_of_ends hstop hends)⟩

/-! ## Crashes of the task of a run -/

/-- A plan that is carried out, from a progress on, up to a step whose agent crashes: all the steps
before succeed, none of them asks to stop, and nothing has interrupted when its turn comes. -/
def CrashesAt (ctx : Context) (stop : StopRule) (p : Progress) (steps : List Planned)
    (tick : Nat) : Prop :=
  ∃ before next after turns q, steps = before ++ next :: after ∧ next.agent = .crashing ∧
    Course ctx stop p before turns q .succeeded ∧ turns.length = before.length ∧
      (∀ t ∈ turns, t.GoesOn ctx stop) ∧ ctx.signals.interruption? q.tick = none ∧ q.tick = tick

section Crash

variable {p : Progress} {steps : List Planned} {tick : Nat}

theorem crashesAt_of_runPlan (h : runPlan ctx stop p steps = .aborted tick) :
    CrashesAt ctx stop p steps tick := by
  rcases runPlan_cases ctx stop p steps with
    ⟨turns, q, s, hcourse⟩ | ⟨next, q, hgets, ⟨t, hclose, hrun⟩ | ⟨-, hhang⟩⟩
  · cases h.symm.trans hcourse.runPlan_eq
  · cases h.symm.trans hrun
    obtain ⟨before, after, turns, hsteps, hcourse, hlength, hturns, hcalm⟩ := hgets
    obtain ⟨hagent, htick⟩ :=
      (Call.close_eq_crashed_iff (Signals.interruption?_eq_none_iff.mp hcalm)).mp hclose
    exact ⟨before, next, after, turns, q, hsteps, hagent, hcourse, hlength, hturns, hcalm, htick⟩
  · cases h.symm.trans hhang

theorem CrashesAt.runPlan_eq (h : CrashesAt ctx stop p steps tick) :
    runPlan ctx stop p steps = .aborted tick := by
  obtain ⟨before, next, after, turns, q, hsteps, hagent, hcourse, hlength, hturns, hcalm, rfl⟩ := h
  have hgets : GetsTo ctx stop p steps next q :=
    ⟨before, after, turns, hsteps, hcourse, hlength, hturns, hcalm⟩
  obtain ⟨rest, hrest⟩ := hgets.exists_runPlan_eq
  have hclose : (Turn.step ctx ⟨q, next⟩).close = .crashed q.tick :=
    (Call.close_eq_crashed_iff (Signals.interruption?_eq_none_iff.mp hcalm)).mpr ⟨hagent, rfl⟩
  rw [hrest, runPlan_cons, hcalm]
  simp only [hclose]

/-- The task of a run is gone exactly when the plan gets to a step whose agent crashes. -/
theorem runPlan_eq_aborted_iff :
    runPlan ctx stop p steps = .aborted tick ↔ CrashesAt ctx stop p steps tick :=
  ⟨crashesAt_of_runPlan, CrashesAt.runPlan_eq⟩

theorem runPlan_ne_hang
    (hends : ∀ x ∈ steps, x.agent.Ends ctx.signals ctx.stream) (p : Progress) :
    runPlan ctx stop p steps ≠ .hang := by
  intro hhang
  rcases runPlan_cases ctx stop p steps with
    ⟨turns, q, s, hcourse⟩ | ⟨next, q, hgets, ⟨t, -, hrun⟩ | ⟨hclose, -⟩⟩
  · cases hhang.symm.trans hcourse.runPlan_eq
  · cases hhang.symm.trans hrun
  · exact hends next hgets.mem_plan _ _ _ hclose

end Crash

/-! ## Runs of definitions -/

/-- The task of a run gets to an agent that crashes, at a tick: it goes over its sub-agents one after
the other, and the turn comes to one of them that does. -/
def MeetsCrash (e : Engine) (ctx : Context) (spec : Workflow.Spec) (tick : Nat) : Prop :=
  ∃ passes agents, spec.composition = onOneSession passes ∧
    resolveAll e.registry spec.subAgents = .ok agents ∧
      CrashesAt ctx e.stop .start (plan passes agents) tick

section OfSpec

variable {e : Engine} {spec : Workflow.Spec}

theorem readable_of_ofSpec {o : Outcome} (h : ofSpec e ctx spec = .finished o) : o.Readable := by
  rcases ofSpec_cases e ctx spec with ⟨passes, -, hrun⟩ | ⟨workers, -, hrun⟩
  · rw [hrun] at h
    exact readable_of_shared h
  · rw [hrun] at h
    exact (mayEndWith_of_sideBySide h).readable

theorem ofSpec_eq_aborted_iff {tick : Nat} :
    ofSpec e ctx spec = .aborted tick ↔ MeetsCrash e ctx spec tick := by
  rcases ofSpec_cases e ctx spec with ⟨passes, hone, hrun⟩ | ⟨workers, hparallel, hrun⟩
  · have hpasses {other : Option Nat} (h : spec.composition = onOneSession other) :
        other = passes := by
      rw [hone] at h
      cases other <;> cases passes <;> cases h <;> rfl
    rw [hrun]
    cases hresolve : resolveAll e.registry spec.subAgents with
    | error fault =>
      rw [shared_of_unresolved hresolve]
      refine iff_of_false nofun ?_
      rintro ⟨_, agents, -, hagents, -⟩
      cases hresolve.symm.trans hagents
    | ok agents =>
      rw [shared_of_resolved hresolve, runPlan_eq_aborted_iff]
      constructor
      · exact fun h => ⟨passes, agents, hone, hresolve, h⟩
      · rintro ⟨other, agents', hother, hagents, h⟩
        cases hpasses hother
        cases hresolve.symm.trans hagents
        exact h
  · -- side by side, a crash only takes its own branch down
    rw [hrun]
    refine iff_of_false ?_ ?_
    · rcases sideBySide_cases ctx e.registry workers spec.subAgents with ⟨o, ho⟩ | ⟨hhang, -⟩
      · rw [ho]
        nofun
      · rw [hhang]
        nofun
    · rintro ⟨passes, _, hone, -⟩
      rw [hparallel] at hone
      cases passes <;> cases hone

theorem ofSpec_ne_hang
    (hends : ∀ r ∈ spec.subAgents, ∀ a, e.registry.resolve r = .ok a →
      a.Ends ctx.signals ctx.stream) : ofSpec e ctx spec ≠ .hang := by
  rcases ofSpec_cases e ctx spec with ⟨passes, -, hrun⟩ | ⟨workers, -, hrun⟩
  · rw [hrun]
    cases hresolve : resolveAll e.registry spec.subAgents with
    | error fault =>
      rw [shared_of_unresolved hresolve]
      nofun
    | ok agents =>
      rw [shared_of_resolved hresolve]
      refine runPlan_ne_hang (fun x hx => ?_) _
      obtain ⟨hmem, hnamed⟩ := resolve_of_mem_plan agents hresolve hx
      exact hends x.reference hmem x.agent hnamed
  · obtain ⟨o, ho⟩ := sideBySide_finishes workers hends
    rw [hrun, ho]
    nofun

end OfSpec

end Run

namespace Engine

/-- What the agents of a run of a checked definition are given. -/
def context (e : Engine) (spec : Workflow.Spec) (task : String) (cancelAt : Option Nat) :
    Run.Context :=
  { task, stream := e.stream, signals := Run.signals spec cancelAt }

theorem run_of_validate (e : Engine) {d : Workflow.Definition} {spec : Workflow.Spec}
    (task : String) (cancelAt : Option Nat) (hvalid : d.validate e.defaultMaxWorkers = .ok spec) :
    e.run d task cancelAt = Run.record spec task (Run.signals spec cancelAt)
      (Run.ofSpec e (e.context spec task cancelAt) spec) := by
  simp only [run, hvalid]
  rfl

/-- A record that a run is given is that of its checked definition, as far as it went. -/
theorem ofSpec_of_run (e : Engine) {d : Workflow.Definition} {task : String}
    {cancelAt : Option Nat} {r : Run} (h : e.run d task cancelAt = .ok r) :
    d.validate e.defaultMaxWorkers = .ok r.spec ∧ r.task = task ∧
      Run.ofSpec e (e.context r.spec task cancelAt) r.spec = .finished r.outcome := by
  cases hvalid : d.validate e.defaultMaxWorkers with
  | error fault =>
    rw [run, hvalid] at h
    cases h
  | ok spec =>
    rw [e.run_of_validate task cancelAt hvalid] at h
    cases hending : Run.ofSpec e (e.context spec task cancelAt) spec with
    | finished o =>
      rw [hending, Run.record] at h
      split at h
      · cases h
        exact ⟨rfl, rfl, hending⟩
      · cases h
    | aborted tick =>
      rw [hending] at h
      cases h
    | hang =>
      rw [hending] at h
      cases h

/-- If all agents end, then a run ends with a record that can be read, and the status that is shown
comes to be the one on record, exactly when its task meets no crash; whoever waits long enough is
given the record.  Else there is none, and the run is shown as running for ever. -/
theorem run_readable_iff (e : Engine) {d : Workflow.Definition} {spec : Workflow.Spec}
    (task : String) (cancelAt : Option Nat) (hvalid : d.validate e.defaultMaxWorkers = .ok spec)
    (hends : ∀ r ∈ spec.subAgents, ∀ a, e.registry.resolve r = .ok a →
      a.Ends (Run.signals spec cancelAt) e.stream) :
    ((∃ o, Run.ofSpec e (e.context spec task cancelAt) spec = .finished o ∧ o.Readable ∧
        (Run.ofSpec e (e.context spec task cancelAt) spec).SettlesAt o.status ∧
          ((Run.signals spec cancelAt).seesEnd o.tick = true →
            e.run d task cancelAt = .ok { id := "run-1", spec, task, outcome := o })) ↔
      ¬ ∃ tick, Run.MeetsCrash e (e.context spec task cancelAt) spec tick) ∧
    ∀ tick, Run.MeetsCrash e (e.context spec task cancelAt) spec tick →
      (Run.ofSpec e (e.context spec task cancelAt) spec).SettlesAt .running ∧
        ((Run.signals spec cancelAt).seesEnd tick = true →
          e.run d task cancelAt = .error .aborted) := by
  rw [e.run_of_validate task cancelAt hvalid]
  have hcrash : ∀ tick, Run.ofSpec e (e.context spec task cancelAt) spec = .aborted tick ↔
      Run.MeetsCrash e (e.context spec task cancelAt) spec tick :=
    fun _ => Run.ofSpec_eq_aborted_iff
  constructor
  · cases hending : Run.ofSpec e (e.context spec task cancelAt) spec with
    | finished o =>
      refine iff_of_true ⟨o, rfl, Run.readable_of_ofSpec hending,
        Run.Ending.settlesAt_finished o, fun hseen => ?_⟩ ?_
      · rw [Run.record, if_pos hseen]
      · rintro ⟨tick, hmeets⟩
        cases hending.symm.trans ((hcrash tick).mpr hmeets)
    | aborted tick =>
      refine iff_of_false ?_ (fun hnone => hnone ⟨tick, (hcrash tick).mp hending⟩)
      rintro ⟨o, ho, -⟩
      cases ho
    | hang => exact absurd hending (Run.ofSpec_ne_hang hends)
  · intro tick hmeets
    rw [(hcrash tick).mpr hmeets]
    refine ⟨Run.Ending.settlesAt_aborted tick, fun hseen => ?_⟩
    rw [Run.record, if_pos hseen]

/-- Beside a crash, a run has a record that can be read, and it is given to the one who waits. -/
theorem run_readable_beside_crash :
    let references : List AgentReference := [{ name := "a" }, { name := "b" }]
    let d : Workflow.Definition := { parallel := some { subAgents := references } }
    let spec : Workflow.Spec :=
      { description := none, timeout := none, composition := .parallel 10,
        subAgents := references }
    let e : Engine :=
      { registry := { agents := [("a", .crashing), ("b", .replay (.ofText "ok"))] } }
    let ending := Run.ofSpec e (e.context spec "t" none) spec
    d.validate e.defaultMaxWorkers = .ok spec ∧
      (∀ r ∈ spec.subAgents, ∀ a, e.registry.resolve r = .ok a →
        a.Ends (Run.signals spec none) e.stream) ∧
      ∃ r, e.run d "t" none = .ok r ∧ r.outcome.Readable ∧ ending.SettlesAt r.status := by
  intro references d spec e ending
  have hvalid : d.validate e.defaultMaxWorkers = .ok spec := by decide +kernel
  have hends : ∀ r ∈ spec.subAgents, ∀ a, e.registry.resolve r = .ok a →
      a.Ends (Run.signals spec none) e.stream :=
    fun _ _ _ ha => Registry.ends_of_resolve (by decide) ha _ _
  have hcalm : ¬ ∃ tick, Run.MeetsCrash e (e.context spec "t" none) spec tick := by
    rintro ⟨tick, passes, _, hone, -⟩
    cases passes <;> cases hone
  obtain ⟨o, ho, hreadable, hsettles, hrun⟩ := (e.run_readable_iff "t" none hvalid hends).1.mpr hcalm
  have hseen : (Run.ofSpec e (e.context spec "t" none) spec).outcome?.map
      (fun o => (Run.signals spec none).seesEnd o.tick) = some true := by
    decide +kernel
  rw [ho] at hseen
  exact ⟨hvalid, hends, _, hrun (Option.some.inj hseen), hreadable, hsettles⟩

/-- The same agents one after the other: all of them end, but there is no record, and the run is shown
as running for ever. -/
theorem not_readable_crash :
    let references : List AgentReference := [{ name := "a" }, { name := "b" }]
    let d : Workflow.Definition := { sequential := some { subAgents := references } }
    let spec : Workflow.Spec :=
      { description := none, timeout := none, composition := .sequential,
        subAgents := references }
    let e : Engine :=
      { registry := { agents := [("a", .crashing), ("b", .replay (.ofText "ok"))] } }
    let ending := Run.ofSpec e (e.context spec "t" none) spec
    d.validate e.defaultMaxWorkers = .ok spec ∧
      (∀ r ∈ spec.subAgents, ∀ a, e.registry.resolve r = .ok a →
        a.Ends (Run.signals spec none) e.stream) ∧
      e.run d "t" none = .error .aborted ∧ ending.SettlesAt .running ∧
        ¬ ∃ s, s.isTerminal = true ∧ ending.SettlesAt s := by
  intro references d spec e ending
  have hends : ∀ r ∈ spec.subAgents, ∀ a, e.registry.resolve r = .ok a →
      a.Ends (Run.signals spec none) e.stream :=
    fun _ _ _ ha => Registry.ends_of_resolve (by decide) ha _ _
  have hending : ending = .aborted 0 := by decide +kernel
  have hrunning : ending.SettlesAt .running := by
    rw [hending]
    exact Run.Ending.settlesAt_aborted 0
  refine ⟨by decide +kernel, hends, by decide +kernel, hrunning, ?_⟩
  rintro ⟨s, hterminal, hs⟩
  rw [hs.unique hrunning] at hterminal
  cases hterminal

end Engine

end Ensemble
