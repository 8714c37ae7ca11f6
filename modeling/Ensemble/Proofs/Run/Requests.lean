import Ensemble.Proofs.Run.Promptness

/-!
What agents are given.  An invocation that gets to its agent hands over the task of the run and the
log of its session as it is at that moment: what earlier invocations have left there, and the event
that this one is running.
-/

namespace Ensemble

/-- A request that an invocation makes in a session that holds the events of earlier ones. -/
structure Invocation.Makes (ctx : Run.Context) (s : Session) (earlier : List EventDraft)
    (v : Invocation) (q : Request) : Prop where
  task : q.task = ctx.task
  stream : q.stream = ctx.stream
  logged : q.history <+: s.events
  history : q.history.map Event.draft = earlier ++ [.status v.author v.id .running]

theorem Call.called_of_calm {agent : Agent} {signals : Signals} {stream : Bool}
    {author id : String} {now : Nat} (hcalm : signals.interrupt? now = none) :
    (trace agent signals stream author id now).called = true := by
  unfold trace
  rw [hcalm]
  cases agent <;> rfl

namespace Run

/-- The invocations of a run have made these calls, each at most one. -/
structure Outcome.CalledWith (o : Outcome) (calls : List (Option Request)) : Prop where
  length : calls.length = o.invocations.length
  requests : o.requests =
    (o.invocations.zip calls).filterMap fun c => c.2.map fun q => (c.1.author, q)

theorem Outcome.calledWith_map {α : Type} {o : Outcome} {xs : List α} {v : α → Invocation}
    {call : α → Option Request} (hinvocations : o.invocations = xs.map v)
    (hrequests : o.requests = xs.filterMap fun x => (call x).map fun q => ((v x).author, q)) :
    o.CalledWith (xs.map call) where
  length := by rw [hinvocations, List.length_map, List.length_map]
  requests := by
    rw [hrequests, hinvocations, List.zip_map', List.filterMap_map]
    rfl

/-! ## One after the other -/

section Course

variable {ctx : Context} {stop : StopRule} {p q : Progress} {steps : List Planned}
  {turns : List Turn} {s : Status}

namespace Turn

/-- What the agent of a turn is given. -/
def request (ctx : Context) (t : Turn) : Request :=
  Step.requestFor ctx t.pending t.before.session t.before.tick

theorem step_request {t : Turn} (hcalm : ctx.signals.interruption? t.before.tick = none) :
    (t.step ctx).request = some (t.request ctx) := by
  have hcalled : (Step.trace ctx t.planned.agent t.pending t.before.tick).called = true :=
    Call.called_of_calm (Signals.interruption?_eq_none_iff.mp hcalm)
  rw [step, Step.take]
  dsimp only
  rw [if_pos hcalled, request]

theorem history_request (t : Turn) : (t.request ctx).history.map Event.draft =
    t.before.session.drafts ++ [.status t.pending.author t.pending.id .running] :=
  Session.drafts_append _ _ _

theorem history_prefix (t : Turn) : (t.request ctx).history <+: (t.step ctx).session.events := by
  -- the report that the call is running is the first thing that the call adds
  obtain ⟨more, hdrafts, -⟩ := Call.exists_drafts_eq t.planned.agent ctx.signals ctx.stream
    t.pending.author t.pending.id t.before.tick
  have hsession : (t.step ctx).session = t.before.session.appendAll
      ((t.before.tick, .status t.pending.author t.pending.id .running) :: more) := by
    rw [← hdrafts]
    rfl
  rw [hsession, Session.appendAll_cons]
  exact Session.events_prefix_appendAll _ more

end Turn

theorem Progress.requests_add {next : Planned} {tick : Nat}
    (hcalm : ctx.signals.interruption? p.tick = none) :
    (p.add tick (Turn.step ctx ⟨p, next⟩)).requests =
      p.requests ++ [((Turn.invocation ctx ⟨p, next⟩).author, Turn.request ctx ⟨p, next⟩)] := by
  rw [add, Turn.step_request (t := ⟨p, next⟩) hcalm]
  rfl

namespace Course

theorem requests_eq (h : Course ctx stop p steps turns q s) :
    q.requests =
      p.requests ++ turns.map fun t => ((t.invocation ctx).author, t.request ctx) := by
  -- no turn begins that is interrupted already, so each of them makes its call
  induction h with
  | finished => exact (List.append_nil _).symm
  | interrupted => exact (List.append_nil _).symm
  | ended hcalm => exact Progress.requests_add hcalm
  | more hcalm _ _ _ ih =>
    rw [ih, Progress.requests_add hcalm, List.map_cons, List.append_assoc, List.singleton_append]

theorem drafts_before (h : Course ctx stop p steps turns q s) {k : Nat} {t : Turn}
    (ht : turns[k]? = some t) :
    t.before.session.drafts = p.session.drafts ++ (turns.take k).flatMap (Turn.log ctx) := by
  induction h generalizing k with
  | finished => cases ht
  | interrupted => cases ht
  | ended =>
    cases k with
    | zero =>
      rw [← Option.some.inj ht]
      exact (List.append_nil _).symm
    | succ k => cases ht
  | more _ _ _ _ ih =>
    cases k with
    | zero =>
      rw [← Option.some.inj ht]
      exact (List.append_nil _).symm
    | succ k =>
      rw [ih ht, Progress.drafts_add, List.take_succ_cons, List.flatMap_cons, List.append_assoc]

theorem history_prefix (h : Course ctx stop p steps turns q s) :
    ∀ t ∈ turns, (t.request ctx).history <+: q.session.events := by
  induction h with
  | finished => intro t ht; cases ht
  | interrupted => intro t ht; cases ht
  | ended =>
    intro t ht
    rw [List.mem_singleton.mp ht]
    exact Turn.history_prefix _
  | more _ _ _ hrest ih =>
    intro t ht
    rcases List.mem_cons.mp ht with rfl | ht
    · exact (Turn.history_prefix _).trans hrest.events_prefix
    · exact ih t ht

theorem makes (h : Course ctx stop .start steps turns q s) {k : Nat} {t : Turn}
    (ht : turns[k]? = some t) :
    (t.invocation ctx).Makes ctx q.session ((turns.map (Turn.log ctx)).take k).flatten
      (t.request ctx) := by
  have hmem := List.mem_of_getElem? ht
  obtain ⟨tick, s, r, hclose⟩ := h.closed t hmem
  refine { task := rfl, stream := rfl, logged := h.history_prefix t hmem, history := ?_ }
  rw [Turn.history_request, h.drafts_before ht, Turn.invocation_of_close hclose,
    Invocation.author_transition, Invocation.author_transition, Invocation.id_transition,
    Invocation.id_transition, ← List.map_take, ← List.flatMap_def]
  rfl

end Course

end Course

/-! ## Side by side -/

namespace Branch

/-- The first event of a branch that begins its call at a time. -/
def opening (b : Branch) (time : Timestamp) : Event :=
  { sequence := 1
    timestamp := time
    draft := .status b.invocation.author b.invocation.id .running }

/-- What a branch has asked its agent: nothing, or what it has to ask at the time at which it
began. -/
inductive Asked (ctx : Context) (b : Branch) : Prop
  | nothing (hrequest : b.request = none) (hstarted : b.invocation.startedAt = none)
  | once {t : Timestamp} {agent : Agent} (hagent : b.agent = .ok agent)
      (hrequest : b.request =
        some { task := ctx.task, history := [b.opening t], stream := ctx.stream })
      (hstarted : b.invocation.startedAt = some t)
      (hopens : ∀ e ∈ b.session.events.head?, e = b.opening t)

/-- A branch of an agent that does not crash, in a run that lets no tick pass at which somebody can
act. -/
structure Briefed (ctx : Context) (now : Nat) (b : Branch) : Prop where
  punctual : b.Punctual ctx now
  live : b.agent ≠ .ok .crashing
  asked : b.Asked ctx

variable {ctx : Context} {now : Nat} {b b' : Branch}

namespace Asked

theorem request_of_untouched (h : b.Asked ctx) (huntouched : b.Untouched) : b.request = none := by
  cases h with
  | nothing hrequest => exact hrequest
  | once _ _ hstarted => cases huntouched.2.symm.trans hstarted

/-- Before it begins, a branch may move to any status that does not mean that it runs. -/
theorem of_untouched (h : b.Asked ctx) (huntouched : b.Untouched)
    (hrequest : b'.request = b.request)
    (hstarted : b'.invocation.startedAt = b.invocation.startedAt) : b'.Asked ctx :=
  .nothing (hrequest.trans (h.request_of_untouched huntouched)) (hstarted.trans huntouched.2)

theorem startedAt_of_untouched (huntouched : b.Untouched) {s : Status} (hs : s ≠ .running) :
    (b.invocation.transition now s).startedAt = b.invocation.startedAt := by
  obtain ⟨⟨-, hpending⟩, -⟩ := huntouched
  rw [Invocation.startedAt_transition _ _ _ (by rw [hpending]; rfl), if_neg hs]

theorem begin {agent : Agent} (huntouched : b.Untouched) (hagent : b.agent = .ok agent)
    (hcalm : ctx.signals.interrupt? now = none) : (b.begin ctx agent now).Asked ctx := by
  obtain ⟨⟨hlog, hpending⟩, -⟩ := huntouched
  have hempty : b.session.events = [] := List.map_eq_nil_iff.mp hlog
  have hcalled : (Step.trace ctx agent b.invocation now).called = true :=
    Call.called_of_calm hcalm
  refine .once (t := .ofTick now) hagent ?_ ?_ ?_
  · rw [Branch.begin]
    dsimp only
    rw [if_pos hcalled, Step.requestFor, Session.append, hempty, Session.stamp, Session.length,
      hempty, opening]
    dsimp only
    rw [Invocation.author_transition, Invocation.id_transition]
    rfl
  · exact Invocation.startedAt_transition _ _ _ (by rw [hpending]; rfl)
  · intro e he
    rw [Branch.begin, hempty] at he
    cases he

theorem add {tick : Nat} {d : EventDraft} {rest : List (Nat × EventDraft)} {close : Close}
    (h : b.Asked ctx) (hpunctual : b.Punctual ctx now)
    (hphase : b.phase = .calling ((tick, d) :: rest) close) :
    Asked ctx { b with session := b.session.append now d, phase := .calling rest close } := by
  obtain ⟨agent, start, hcalls⟩ := hpunctual.standing.calls hphase
  cases h with
  | nothing _ hstarted => cases hstarted.symm.trans hcalls.startedAt
  | @once time agent' hagent hrequest hstarted hopens =>
    refine .once hagent hrequest hstarted ?_
    cases hempty : b.session.events with
    | cons first more =>
      rw [hempty] at hopens
      rw [Session.append, hempty]
      exact hopens
    | nil =>
      -- the first event of the call is the report that it is running, and it is added at once
      obtain ⟨d', more, hnow⟩ := hpunctual.opening _ _ hphase (congrArg _ hempty)
      obtain ⟨done, htrace, hdone⟩ := hcalls.drafts
      obtain ⟨later, hdrafts, -⟩ := Call.exists_drafts_eq agent ctx.signals ctx.stream
        b.invocation.author b.invocation.id start
      have hnone : done = [] := by
        rw [Session.drafts, hempty] at hdone
        exact List.map_eq_nil_iff.mp hdone.symm
      rw [Step.trace, hdrafts, hnone, List.nil_append, List.cons.injEq, Prod.mk.injEq] at htrace
      obtain ⟨⟨rfl, rfl⟩, -⟩ := htrace
      rw [List.cons.injEq, Prod.mk.injEq] at hnow
      obtain ⟨⟨rfl, -⟩, -⟩ := hnow
      have htime : time = .ofTick start := Option.some.inj (hstarted.symm.trans hcalls.startedAt)
      intro e he
      rw [Session.append, Session.stamp, Session.length, hempty] at he
      rw [htime, ← Option.some.inj he]
      rfl

theorem close {s : Status} (h : b.Asked ctx) (hrunning : b.invocation.status = .running)
    (hs : s ≠ .running) :
    Asked ctx { b with invocation := b.invocation.transition now s, phase := .ended } := by
  have hstarted : (b.invocation.transition now s).startedAt = b.invocation.startedAt := by
    rw [Invocation.startedAt_transition _ _ _ (by rw [hrunning]; rfl), if_neg hs]
  have hopening (time : Timestamp) : opening
      { b with invocation := b.invocation.transition now s, phase := .ended } time =
        b.opening time := by
    simp only [opening, Invocation.author_transition, Invocation.id_transition]
  cases h with
  | nothing hrequest hnever => exact .nothing hrequest (hstarted.trans hnever)
  | once hagent hrequest htime hopens =>
    refine .once hagent ?_ (hstarted.trans htime) ?_
    · rw [hopening]
      exact hrequest
    · rw [hopening]
      exact hopens

end Asked

namespace Briefed

theorem later {tick : Nat} (h : b.Briefed ctx now) (hle : now ≤ tick)
    (hdue : ∀ t, b.dueAt ctx.signals now = some t → tick ≤ t) : b.Briefed ctx tick :=
  { h with punctual := h.punctual.later hle hdue }

theorem move (h : b.Briefed ctx now) (hmove : b.Moves ctx now b') : b'.Briefed ctx now := by
  have horigin : b'.agent = b.agent := congrArg Prod.fst hmove.origin_eq
  refine ⟨h.punctual.move hmove, horigin ▸ h.live, ?_⟩
  have hstanding := h.punctual.standing
  cases hmove with
  | failed hphase hagent =>
    have huntouched := hstanding.untouched (Or.inl hphase)
    exact h.asked.of_untouched huntouched rfl (Asked.startedAt_of_untouched huntouched nofun)
  | refused hphase hagent hwhy =>
    have huntouched := hstanding.untouched (hphase.imp_right Or.inr)
    exact h.asked.of_untouched huntouched rfl (Asked.startedAt_of_untouched huntouched nofun)
  | left hphase hwhy =>
    have huntouched := hstanding.untouched (Or.inr (Or.inl hphase))
    exact h.asked.of_untouched huntouched rfl (Asked.startedAt_of_untouched huntouched nofun)
  | queued hphase hagent => exact h.asked.of_untouched (hstanding.untouched (Or.inl hphase)) rfl rfl
  | granted hphase =>
    exact h.asked.of_untouched (hstanding.untouched (Or.inr (Or.inl hphase))) rfl rfl
  | began hphase hagent hcalm =>
    exact Asked.begin (hstanding.untouched (hphase.imp_right Or.inr)) hagent hcalm
  | added hphase => exact h.asked.add h.punctual hphase
  | closed hphase htick =>
    obtain ⟨agent, start, hcalls⟩ := hstanding.calls hphase
    refine h.asked.close hcalls.running ?_
    rintro rfl
    cases Call.isTerminal_of_close hcalls.close
  | crashed hphase =>
    obtain ⟨agent, start, hcalls⟩ := hstanding.calls hphase
    have hagent := Call.eq_crashing_of_close hcalls.close
    exact absurd (hcalls.resolved.trans (congrArg _ hagent)) h.live

/-- A branch that has ended has called its agent, unless it had none or never had a slot. -/
theorem request_eq_none_iff (h : b.Briefed ctx now) (hended : b.isEnded = true) :
    b.request = none ↔
      (∃ e, b.agent = .error e) ∨ ∃ why, b.invocation.RefusedFor ctx.signals why := by
  have hfate := h.punctual.standing.fate hended
  cases h.asked with
  | nothing hrequest hnever =>
    refine iff_of_true hrequest ?_
    cases hfate with
    | unresolved hagent => exact Or.inl ⟨_, hagent⟩
    | @gaveUp agent tick why hagent hwhy _ hstatus hstarted hfinished =>
      refine Or.inr ⟨.ofInterrupt why, hstatus, hstarted, tick, hfinished, fun p who => ?_⟩
      rw [hwhy]
      exact Pool.acquire_eq_refused_iff.mpr rfl
    | closed _ _ _ _ _ hstarted => cases hnever.symm.trans hstarted
    | crashed hagent => exact absurd hagent h.live
  | once hagent hrequest hstarted =>
    refine iff_of_false (by rw [hrequest]; nofun) ?_
    rintro (⟨e, herror⟩ | ⟨why, -, hnever, -⟩)
    · cases hagent.symm.trans herror
    · cases hnever.symm.trans hstarted

theorem makes (h : b.Briefed ctx now) (hended : b.isEnded = true) {q : Request}
    (hq : b.request = some q) : b.invocation.Makes ctx b.session [] q := by
  cases h.asked with
  | nothing hrequest => cases hrequest.symm.trans hq
  | @once time agent hagent hrequest hstarted hopens =>
    cases hrequest.symm.trans hq
    refine { task := rfl, stream := rfl, logged := ?_, history := rfl }
    -- the branch has begun, so its log is not empty
    cases h.punctual.standing.fate hended with
    | unresolved herror => cases hagent.symm.trans herror
    | gaveUp _ _ _ _ hnever => cases hnever.symm.trans hstarted
    | crashed hcrash => exact absurd hcrash h.live
    | @closed agent start _ _ _ _ _ _ _ _ _ hlog =>
      obtain ⟨more, hdrafts, -⟩ := Call.exists_drafts_eq agent ctx.signals ctx.stream
        b.invocation.author b.invocation.id start
      cases hevents : b.session.events with
      | nil =>
        rw [Step.trace, hdrafts, Session.drafts, hevents] at hlog
        cases hlog
      | cons first rest =>
        rw [hevents] at hopens
        rw [hopens first rfl]
        exact List.prefix_append [b.opening time] rest

end Briefed

end Branch

theorem Fleet.briefed_advance (ctx : Context) {registry : Registry} (workers : Nat)
    {references : List AgentReference}
    (hlive : ∀ r ∈ references, registry.resolve r ≠ .ok .crashing) (n : Nat) :
    ∀ b ∈ (advance ctx n (start registry workers references)).branches,
      b.Briefed ctx (advance ctx n (start registry workers references)).now := by
  refine forall_mem_advance (Q := fun now b => b.Briefed ctx now)
    (fun _ _ _ hle hdue h => h.later hle hdue) (fun _ _ _ h hmove => h.move hmove)
    (orderly_start registry workers references) ?_ n
  intro b hb
  obtain ⟨i, hi, rfl⟩ := List.mem_mapIdx.mp hb
  exact
    { punctual := Branch.punctual_start ctx registry i _
      live := hlive _ (List.getElem_mem hi)
      asked := .nothing rfl rfl }

/-! ## Runs of definitions -/

/-- On one session every invocation makes a call in its turn, and hands over the blocks that all
earlier ones have left. -/
structure InformedInTurn (ctx : Context) (o : Outcome) (s : Session)
    (logs : List (List EventDraft)) (requests : List Request) : Prop where
  sessions : o.sessions = [s]
  calls : o.CalledWith (requests.map some)
  blocks : List.Forall₂ (fun (v : Invocation) log =>
    v.sessionId = s.id ∧ ∃ r, Block v.author v.id v.status r log) o.invocations logs
  makes : ∀ (k : Nat) (v : Invocation) (q : Request), o.invocations[k]? = some v →
    requests[k]? = some q → v.Makes ctx s (logs.take k).flatten q

/-- Side by side an invocation makes a call in a session of its own, unless its reference names no
agent or it never had a slot. -/
structure InformedAlone (ctx : Context) (registry : Registry) (r : AgentReference) (s : Session)
    (v : Invocation) (call : Option Request) : Prop where
  reference : v.agent = r
  session : v.sessionId = s.id
  silent : call = none ↔
    (∃ e, registry.resolve r = .error e) ∨ ∃ why, v.RefusedFor ctx.signals why
  makes : ∀ q, call = some q → v.Makes ctx s [] q

/-- What the agents of a run are given, by its composition. -/
def Informed (ctx : Context) (registry : Registry) (references : List AgentReference)
    (o : Outcome) : Workflow.Composition → Prop
  | .parallel _ =>
    o.invocations.length = references.length ∧ ∃ calls, o.CalledWith calls ∧
      ∀ (i : Nat) (r : AgentReference), references[i]? = some r →
        ∃ s v call, o.sessions[i]? = some s ∧ o.invocations[i]? = some v ∧
          calls[i]? = some call ∧ InformedAlone ctx registry r s v call
  | _ => ∃ s logs requests, InformedInTurn ctx o s logs requests

variable {ctx : Context} {registry : Registry} {references : List AgentReference} {o : Outcome}

theorem informed_shared {stop : StopRule} {passes : Option Nat}
    (hlive : ∀ r ∈ references, registry.resolve r ≠ .ok .crashing)
    (h : shared ctx registry stop passes references = .finished o) :
    ∃ s logs requests, InformedInTurn ctx o s logs requests := by
  rcases shared_cases h with ⟨r, e, -, rfl⟩ | ⟨agents, turns, q, s, hresolve, hcourse, hfinish⟩
  · -- nothing was invoked
    exact ⟨_, [], [],
      { sessions := rfl, calls := ⟨rfl, rfl⟩, blocks := .nil, makes := fun _ _ _ hv => nomatch hv }⟩
  · obtain ⟨-, hsessions, hinvocations⟩ := hcourse.outcome_eq rfl hfinish
    have hrequests : o.requests = q.requests := by
      cases hfinish
      rfl
    refine ⟨q.session, turns.map (Turn.log ctx), turns.map (Turn.request ctx), ?_⟩
    constructor
    case sessions => exact hsessions
    case calls =>
      rw [List.map_map]
      refine Outcome.calledWith_map hinvocations ?_
      rw [hrequests, hcourse.requests_eq, ← List.filterMap_eq_map]
      rfl
    case blocks =>
      rw [hinvocations, List.forall₂_map_left_iff, List.forall₂_map_right_iff, List.forall₂_same]
      intro t ht
      exact ⟨hcourse.sessionId_eq ht,
        _, hcourse.turn_block (live_plan agents hresolve hlive passes) ht⟩
    case makes =>
      intro k v r hv hr
      rw [hinvocations, List.getElem?_map] at hv
      rw [List.getElem?_map] at hr
      obtain ⟨t, ht, rfl⟩ := Option.map_eq_some_iff.mp hv
      rw [ht] at hr
      rw [← Option.some.inj hr]
      exact hcourse.makes ht

theorem informed_sideBySide {workers : Nat}
    (hlive : ∀ r ∈ references, registry.resolve r ≠ .ok .crashing)
    (h : sideBySide ctx registry workers references = .finished o) :
    Informed ctx registry references o (.parallel workers) := by
  obtain ⟨hended, rfl⟩ := ended_of_sideBySide h
  have hbriefed := Fleet.briefed_advance ctx workers hlive
    (Fleet.start registry workers references).work
  have hreach := Fleet.reaches_advance ctx (Fleet.start registry workers references).work
    (Fleet.start registry workers references)
  generalize Fleet.advance ctx _ _ = f at hended hbriefed hreach ⊢
  refine ⟨(List.length_map _).trans hreach.length_branches, f.branches.map Branch.request,
    Outcome.calledWith_map rfl (List.filterMap_eq_flatMap_toList _ _).symm, ?_⟩
  intro i r hr
  obtain ⟨b, hb⟩ := hreach.exists_branch hr
  have hmem := List.mem_of_getElem? hb
  have hfor := hreach.isFor hr hb
  refine ⟨b.session, b.invocation, b.request, ?_, ?_, ?_, ?_⟩
  · rw [Fleet.outcome, List.getElem?_map, hb, Option.map_some]
  · rw [Fleet.outcome, Fleet.invocations, List.getElem?_map, hb, Option.map_some]
  · rw [List.getElem?_map, hb, Option.map_some]
  · exact
      { reference := hfor.reference
        session := hfor.session
        silent := hfor.agent ▸ (hbriefed b hmem).request_eq_none_iff (hended b hmem)
        makes := fun q hq => (hbriefed b hmem).makes (hended b hmem) hq }

end Run

/-- Whatever its timeout is and whenever it is cancelled, a run gives its agents the task, the
configured mode and what their own session holds, once for every invocation. -/
theorem Engine.run_informs (e : Engine) {d : Workflow.Definition} {task : String}
    {cancelAt : Option Nat} {r : Run}
    (hlive : ∀ x ∈ r.spec.subAgents, e.registry.resolve x ≠ .ok .crashing)
    (hrun : e.run d task cancelAt = .ok r) :
    r.task = task ∧ Run.Informed (e.context r.spec task cancelAt) e.registry r.spec.subAgents
      r.outcome r.spec.composition := by
  obtain ⟨-, htask, hending⟩ := e.ofSpec_of_run hrun
  refine ⟨htask, ?_⟩
  rcases Run.ofSpec_cases e (e.context r.spec task cancelAt) r.spec with
    ⟨passes, hone, hshared⟩ | ⟨workers, hparallel, hside⟩
  · rw [hshared] at hending
    rw [hone]
    cases passes <;> exact Run.informed_shared hlive hending
  · rw [hside] at hending
    rw [hparallel]
    exact Run.informed_sideBySide hlive hending

/-- One slot for three branches: the first is cancelled in its call, the second is called off in the
queue, and the third has no agent. -/
theorem Engine.run_informs_one_slot :
    let references : List AgentReference := [{ name := "a" }, { name := "b" }, { name := "c" }]
    let d : Workflow.Definition :=
      { parallel := some { subAgents := references, maxWorkers := some 1 } }
    let slow : Replay := { script := [.ofText "hi", .ofText "there"], delay := 2, tail := .hang }
    let e : Engine :=
      { registry := { agents := [("a", .replay slow), ("b", .replay (.ofText "ok"))] } }
    ∃ r, (∀ x ∈ r.spec.subAgents, e.registry.resolve x ≠ .ok .crashing) ∧
      e.run d "t" (some 3) = .ok r ∧ r.outcome.requests.length = 1 ∧ r.task = "t" ∧
      Run.Informed (e.context r.spec "t" (some 3)) e.registry r.spec.subAgents r.outcome
        r.spec.composition := by
  intro references d slow e
  have hcalls : (e.run d "t" (some 3)).toOption.map (fun r =>
      (r.spec.subAgents, r.outcome.requests.length)) = some (references, 1) := by decide +kernel
  cases hrun : e.run d "t" (some 3) with
  | error fault =>
    rw [hrun] at hcalls
    cases hcalls
  | ok r =>
    rw [hrun] at hcalls
    obtain ⟨hreferences, hone⟩ := Prod.mk.inj (Option.some.inj hcalls)
    have hlive : ∀ x ∈ r.spec.subAgents, e.registry.resolve x ≠ .ok .crashing := by
      rw [hreferences]
      decide +kernel
    exact ⟨r, hlive, rfl, hone, e.run_informs hlive hrun⟩

end Ensemble
