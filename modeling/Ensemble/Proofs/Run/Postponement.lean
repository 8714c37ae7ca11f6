import Ensemble.Proofs.Run.Aftermath
import Ensemble.Proofs.Run.Readable

/-!
A later deadline only extends what a run leaves behind.  A run that is over before its deadline is
the same run with any later one; and what a run that times out has recorded before its deadline is
the beginning of what the same run records with a later one.
-/

namespace Ensemble

namespace Run

/-- What the log of a session is without the final event and the report of the invocation that has
timed out on it, if there is one. -/
inductive Outcome.Uncut (o : Outcome) (s : Session) : List Event → Prop
  | whole (hnone : ∀ v ∈ o.invocations, v.sessionId = s.id → v.status ≠ .timedOut) :
      Uncut o s s.events
  | cut {v : Invocation} {r : Response} {kept : List Event} {final last : Event}
      (hv : v ∈ o.invocations) (hsession : v.sessionId = s.id) (hstatus : v.status = .timedOut)
      (honly : ∀ u ∈ o.invocations, u.sessionId = s.id → u.status = .timedOut → u = v)
      (hevents : s.events = kept ++ [final, last])
      (hfinal : final.draft = .response v.author r)
      (hlast : last.draft = .status v.author v.id .timedOut) : Uncut o s kept

/-- A session as it is at a tick in two runs, and how it goes on in either of them. -/
structure Outcome.Shares (o : Outcome) (t : Nat) (s s' common : Session) : Prop where
  uncut : o.Uncut s common.events
  before : ∀ e ∈ common.events, e.Before t
  near : common.GrownFrom t s
  far : common.GrownFrom t s'

/-- What a run whose deadline comes at a tick leaves behind, beside what it leaves behind with a
later deadline or none. -/
structure Outcome.ContinuedBy (t : Nat) (o o' : Outcome) : Prop where
  settled : o.status ≠ .timedOut → o' = o
  cut : o.status = .timedOut →
    List.Forall₂ (fun s s' => ∃ common, o.Shares t s s' common) o.sessions o'.sessions

variable {far near : Context} {t : Nat}

theorem Outcome.continuedBy_of_settled {o : Outcome} (hs : o.status ≠ .timedOut) :
    o.ContinuedBy t o :=
  ⟨fun _ => rfl, fun h => absurd h hs⟩

/-! ## On one session -/

section Shared

variable {stop : StopRule} {p q : Progress} {next : Planned} {plan rest : List Planned}
  {turns : List Turn} {s : Status}

/-- A turn that begins at a tick or later adds nothing before it. -/
theorem Turn.grownFrom {ctx : Context} (turn : Turn)
    (hfirst : ∀ tick, ctx.signals.first? = some tick → t ≤ tick) (hp : t ≤ turn.before.tick) :
    turn.before.session.GrownFrom t (turn.step ctx).session ∧
      ∀ tick, (turn.step ctx).close.tick? = some tick → t ≤ tick := by
  have hfrom : (Step.trace ctx turn.planned.agent turn.pending turn.before.tick).From t :=
    Call.trace_from hfirst hp _ _
  exact ⟨.appendAll hfrom.1 _, hfrom.2⟩

theorem Course.grownFrom {ctx : Context} (h : Course ctx stop p plan turns q s)
    (hfirst : ∀ tick, ctx.signals.first? = some tick → t ≤ tick) (hp : t ≤ p.tick) :
    p.session.GrownFrom t q.session := by
  induction h with
  | finished | interrupted => exact .refl t _
  | @ended p next => exact (Turn.grownFrom ⟨p, next⟩ hfirst hp).1
  | @more p q next rest turns tick s r _ hclose _ _ ih =>
    obtain ⟨hgrown, hover⟩ := Turn.grownFrom ⟨p, next⟩ hfirst hp
    exact hgrown.trans (ih (hover tick (by rw [hclose]; rfl)))

/-- A run that makes a call which ends only at a tick or later adds to what that call has added. -/
theorem Course.grownFrom_step {ctx : Context} (h : Course ctx stop p (next :: rest) turns q s)
    (hcalm : ctx.signals.interruption? p.tick = none)
    (hfirst : ∀ tick, ctx.signals.first? = some tick → t ≤ tick)
    (hclose : ∀ tick, (Turn.step ctx ⟨p, next⟩).close.tick? = some tick → t ≤ tick) :
    (Turn.step ctx ⟨p, next⟩).session.GrownFrom t q.session := by
  cases h with
  | interrupted hinterrupt => cases hcalm.symm.trans hinterrupt
  | ended => exact .refl t _
  | more _ hclosed _ hrest => exact hrest.grownFrom hfirst (hclose _ (by rw [hclosed]; rfl))

namespace Turn

variable {turn : Turn} {tick : Nat} {r : Option Response} (hctx : far.Postpones near t)
  (hbefore : turn.before.tick < t)

include hctx hbefore

/-- A turn that does not time out is over before the deadline, and is the same under a later one. -/
theorem same_of_close (hclose : (turn.step near).close = .closed tick s r) (hs : s ≠ .timedOut) :
    turn.step far = turn.step near ∧ tick < t ∧
      ∀ d ∈ (Step.trace near turn.planned.agent turn.pending turn.before.tick).drafts, d.1 < t := by
  have hcut := hctx.trace_cutAt turn.planned.agent turn.pending hbefore
  rw [step, Step.take] at hclose
  generalize htrace : Step.trace near turn.planned.agent turn.pending turn.before.tick = c
    at hcut hclose ⊢
  cases hcut with
  | untouched hdrafts hover =>
    obtain ⟨tick', htick', hclosed⟩ := hover
    dsimp only at hclose
    rw [hclose] at hclosed
    cases hclosed
    refine ⟨?_, htick', hdrafts⟩
    simp only [step, Step.take, htrace, hctx.requestFor]
  | cut =>
    cases hclose
    exact absurd rfl hs

/-- A turn that times out is cut off by the deadline. -/
theorem cut_of_close (hclose : (turn.step near).close = .closed tick .timedOut r) :
    ∃ kept more r called, (∀ d ∈ kept, d.1 < t) ∧ (∀ d ∈ more, t ≤ d.1) ∧
      (turn.step far).session = turn.before.session.appendAll (kept ++ more) ∧
      (∀ tick, (turn.step far).close.tick? = some tick → t ≤ tick) ∧
      Step.trace near turn.planned.agent turn.pending turn.before.tick =
        { drafts := kept ++ [(t, .response turn.pending.author r),
            (t, .status turn.pending.author turn.pending.id .timedOut)]
          close := .closed t .timedOut (some r)
          called } := by
  have hcut := hctx.trace_cutAt turn.planned.agent turn.pending hbefore
  have hne (htick : tick < t) : Status.timedOut ≠ .timedOut :=
    Call.ne_timedOut_of_close hctx.signals hclose htick
  rw [step, Step.take] at hclose
  generalize Step.trace near turn.planned.agent turn.pending turn.before.tick = c at hcut hclose ⊢
  cases hcut with
  | untouched hdrafts hover =>
    obtain ⟨tick', htick', hclosed⟩ := hover
    dsimp only at hclose
    rw [hclose] at hclosed
    cases hclosed
    exact absurd rfl (hne htick')
  | @cut kept more r hwhole hkept hmore hover =>
    refine ⟨kept, more, r, _, hkept, hmore, ?_, hover, rfl⟩
    rw [step, Step.take, hwhole]

end Turn

theorem Turn.asksToStop_congr {turn : Turn} (h : turn.step far = turn.step near) :
    turn.asksToStop far stop = turn.asksToStop near stop := by
  rw [asksToStop, asksToStop, response?, response?, h]

/-- A turn that the deadline cuts off adds two events to what it has in common with the same turn
under a later deadline. -/
theorem Turn.uncut {turn : Turn} {common : Session} {r : Response} {o : Outcome}
    (hclose : (turn.step near).close = .closed t .timedOut (some r))
    (hsession : (turn.step near).session = common.appendAll
      [(t, .response turn.pending.author r),
        (t, .status turn.pending.author turn.pending.id .timedOut)])
    (hcommon : common.id = turn.before.session.id)
    (hnone : ∀ v ∈ turn.before.invocations, v.status ≠ .timedOut)
    (ho : o.invocations = turn.before.invocations ++ [turn.invocation near]) :
    o.Uncut (turn.step near).session common.events := by
  have hinvocation := invocation_of_close hclose
  rw [hsession]
  refine .cut (v := turn.invocation near) (r := r) ?_ ?_ (status_of_close hclose) ?_
    (List.append_assoc _ [_] [_]) ?_ ?_
  · rw [ho]
    exact List.mem_append_right _ List.mem_cons_self
  · rw [hinvocation, Invocation.sessionId_transition, Invocation.sessionId_transition,
      Session.id_appendAll, hcommon]
    rfl
  · -- of the invocations, only the last one has timed out
    intro u hu _ hs
    rw [ho] at hu
    rcases List.mem_append.mp hu with hu | hu
    · exact absurd hs (hnone u hu)
    · exact List.mem_singleton.mp hu
  · rw [hinvocation, Invocation.author_transition, Invocation.author_transition]
    rfl
  · rw [hinvocation, Invocation.author_transition, Invocation.author_transition,
      Invocation.id_transition, Invocation.id_transition]
    rfl

theorem Turn.shares {turn : Turn} (hbefore : ∀ e ∈ turn.before.session.events, e.Before t)
    (hnone : ∀ v ∈ turn.before.invocations, v.status ≠ .timedOut) {kept : List (Nat × EventDraft)}
    {r : Response} {called : Bool} (hkept : ∀ d ∈ kept, d.1 < t)
    (htrace : Step.trace near turn.planned.agent turn.pending turn.before.tick =
      { drafts := kept ++ [(t, .response turn.pending.author r),
          (t, .status turn.pending.author turn.pending.id .timedOut)]
        close := .closed t .timedOut (some r)
        called }) {s' : Session} (hs' : (turn.before.session.appendAll kept).GrownFrom t s')
    {o : Outcome} (ho : o.invocations = turn.before.invocations ++ [turn.invocation near]) :
    o.Shares t (turn.step near).session s' (turn.before.session.appendAll kept) := by
  have hclose : (turn.step near).close = .closed t .timedOut (some r) := by
    rw [step, Step.take, htrace]
  have hsession : (turn.step near).session = (turn.before.session.appendAll kept).appendAll
      [(t, .response turn.pending.author r),
        (t, .status turn.pending.author turn.pending.id .timedOut)] := by
    rw [step, Step.take, htrace, Session.appendAll_append]
  refine ⟨uncut hclose hsession (Session.id_appendAll _ _) hnone ho,
    Session.before_appendAll hbefore hkept, ?_, hs'⟩
  rw [hsession]
  refine .appendAll (fun d hd => ?_) _
  rcases List.mem_pair.mp hd with rfl | rfl <;> exact Nat.le_refl t

/-- A course under the earlier deadline beside a run under the later one, from a progress that they
have in common. -/
theorem Course.continuedBy (hctx : far.Postpones near t) (h : Course near stop p plan turns q s)
    (hp : p.tick < t) (hbefore : ∀ e ∈ p.session.events, e.Before t)
    (hnone : ∀ v ∈ p.invocations, v.status ≠ .timedOut) {o o' : Outcome}
    (ho : q.finish s = .finished o) (ho' : runPlan far stop p plan = .finished o') :
    o.ContinuedBy t o' := by
  have hcalm {tick : Nat} (htick : tick < t) : far.signals.interruption? tick = none :=
    Signals.interruption?_eq_none_iff.mpr (hctx.signals.calm_far htick)
  induction h with
  | finished p =>
    cases ho.symm.trans ho'
    cases ho
    exact Outcome.continuedBy_of_settled nofun
  | interrupted hinterrupt =>
    rw [Signals.interruption?_eq_none_iff.mpr (hctx.signals.calm_near hp)] at hinterrupt
    cases hinterrupt
  | @ended p next rest tick s r _ hclose hend =>
    by_cases hs : s = .timedOut
    · -- the deadline cuts off the turn
      subst hs
      obtain ⟨kept, more, r', called, hkept, hmore, hfar, hover, htrace⟩ :=
        Turn.cut_of_close hctx hp hclose
      obtain ⟨turns, q', s', hcourse, hfinish⟩ := course_of_runPlan ho'
      have hgrown := hcourse.grownFrom_step (hcalm hp) (fun _ => hctx.signals.le_first?_far) hover
      rw [hfar, Session.appendAll_append] at hgrown
      cases ho
      cases hfinish
      refine ⟨fun hne => absurd rfl hne, fun _ => .cons ⟨p.session.appendAll kept, ?_⟩ .nil⟩
      exact Turn.shares hbefore hnone hkept htrace
        ((Session.GrownFrom.appendAll hmore _).trans hgrown) rfl
    · obtain ⟨hstep, -, -⟩ := Turn.same_of_close hctx hp hclose hs
      rw [← Turn.asksToStop_congr hstep] at hend
      rw [← hstep] at hclose
      rw [runPlan_of_ended (hcalm hp) hclose hend, hstep] at ho'
      cases ho.symm.trans ho'
      cases ho
      exact Outcome.continuedBy_of_settled hs
  | @more p q next rest turns tick s r _ hclose hgo hrest ih =>
    obtain ⟨hstep, htick, hdrafts⟩ := Turn.same_of_close hctx hp hclose nofun
    have hstatus := Turn.status_of_close hclose
    rw [← Turn.asksToStop_congr hstep] at hgo
    rw [← hstep] at hclose
    rw [runPlan_of_goesOn (hcalm hp) hclose hgo, hstep] at ho'
    refine ih htick (Session.before_appendAll hbefore hdrafts) ?_ ho ho'
    intro v hv
    rcases List.mem_append.mp hv with hv | hv
    · exact hnone v hv
    · rw [List.mem_singleton.mp hv]
      intro hs
      cases hstatus.symm.trans hs

theorem shared_continuedBy (hctx : far.Postpones near t) (hpos : 0 < t) {registry : Registry}
    {passes : Option Nat} {references : List AgentReference} {o o' : Outcome}
    (ho : shared near registry stop passes references = .finished o)
    (ho' : shared far registry stop passes references = .finished o') : o.ContinuedBy t o' := by
  rcases shared_cases ho with ⟨r, e, hresolve, rfl⟩ | ⟨agents, turns, q, s, hresolve, hcourse, ho⟩
  · rw [shared_of_unresolved hresolve] at ho'
    cases ho'
    exact Outcome.continuedBy_of_settled nofun
  · rw [shared_of_resolved hresolve] at ho'
    exact hcourse.continuedBy hctx hpos (fun _ he => (List.not_mem_nil he).elim)
      (fun _ hv => (List.not_mem_nil hv).elim) ho ho'

end Shared

/-! ## Side by side -/

namespace Fleet

variable {f g f' g' : Fleet} {registry : Registry} {workers : Nat}
  {references : List AgentReference}

/-- A run that is over before the deadline is the same under a later one. -/
theorem Twin.continuedBy (h : f.Twin t g) (hctx : far.Postpones near t)
    (hreach : Reaches near (start registry workers references) g) (hnow : g.now < t)
    (hended : ∀ b ∈ g.branches, b.isEnded = true) :
    (g.outcome near.signals).ContinuedBy t (f.outcome far.signals) := by
  rw [h.eq_of_ended hended]
  have hcalm := hctx.signals.calm_near hnow
  have hsame : g.outcome far.signals = g.outcome near.signals := by
    rw [outcome, outcome, status_of_calm (hctx.signals.calm_far hnow) hcalm]
  rw [hsame]
  refine Outcome.continuedBy_of_settled fun hs => ?_
  -- nobody has timed out, and the deadline has not passed
  rcases status_eq_timedOut_iff.mp hs with hany | ⟨-, hpassed⟩
  · obtain ⟨v, hv, hs⟩ := anyWith_iff.mp hany
    obtain ⟨b, hb, rfl⟩ := List.mem_map.mp hv
    exact hreach.ne_timedOut hctx.signals hnow hb (hended b hb) hs
  · rw [(Signals.interrupt?_eq_none_iff.mp hcalm).2] at hpassed
    cases hpassed

/-- A session beside that of the same branch under a later deadline, when the branch has wound
up. -/
theorem shares_of_winding {signals : Signals}
    (hreach : Reaches near (start registry workers references) g) {b x : Branch} {s' : Session}
    (hx : x ∈ g.branches) (hended : x.isEnded = true) (hwinding : b.Winding t x)
    (hbefore : ∀ e ∈ b.session.events, e.Before t) (hnear : b.session.GrownFrom t x.session)
    (hfar : b.session.GrownFrom t s') : (g.outcome signals).Shares t x.session s' b.session := by
  have hmine {u : Invocation} (hu : u ∈ g.invocations) (hid : u.sessionId = x.session.id) :
      u = x.invocation := by
    obtain ⟨y, hy, rfl⟩ := List.mem_map.mp hu
    rw [hreach.eq_of_sessionId hy hx hid]
  refine ⟨?_, hbefore, hnear, hfar⟩
  obtain ⟨more, hmore, -⟩ := hnear.events
  have hdrafts : x.session.drafts = b.session.drafts ++ more.map Event.draft := by
    rw [Session.drafts, hmore, List.map_append, Session.drafts]
  by_cases hs : x.invocation.status = .timedOut
  · obtain ⟨r, hlog⟩ := hwinding.cut_of_timedOut hs
    rw [hdrafts, List.append_cancel_left_eq] at hlog
    obtain ⟨final, last, rfl⟩ : ∃ final last, more = [final, last] :=
      List.length_eq_two.mp ((List.length_map _).symm.trans (congrArg List.length hlog))
    rw [List.map_cons, List.map_singleton, List.cons.injEq, List.cons.injEq] at hlog
    obtain ⟨i, r', -, -, hfor⟩ := hreach.exists_isFor hx
    exact .cut (List.mem_map_of_mem hx) hfor.session hs (fun u hu hid _ => hmine hu hid) hmore
      hlog.1 hlog.2.1
  · rw [hwinding.drafts_eq hended hs, List.self_eq_append_right, List.map_eq_nil_iff] at hdrafts
    rw [hdrafts, List.append_nil] at hmore
    rw [← hmore]
    refine .whole fun u hu hid => ?_
    rw [hmine hu hid]
    exact hs

/-- A run that the deadline cuts off leaves behind the beginning of what it would have come to. -/
theorem Parting.continuedBy (h : Parting far near t f g) (hctx : far.Postpones near t)
    (hreach : Reaches far (start registry workers references) f)
    (hreach' : Reaches near (start registry workers references) g) (hafter : Reaches far f f')
    (hafter' : Reaches near g g') (hended : ∀ b ∈ g'.branches, b.isEnded = true)
    (hopen : ∃ b ∈ g.branches, b.isEnded = false) :
    (g'.outcome near.signals).ContinuedBy t (f'.outcome far.signals) := by
  have horderly := hreach.orderly (orderly_start registry workers references)
  have hfinal : Reaches near (start registry workers references) g' := hreach'.trans hafter'
  have hlength : g'.branches.length = f'.branches.length := by
    rw [hafter'.length_eq (hreach'.orderly (orderly_start registry workers references)),
      hafter.length_eq horderly, h.twin.length]
  have hstatus : g'.status near.signals = .timedOut := by
    obtain ⟨b, hb, hs⟩ := h.exists_timedOut hctx hreach' horderly hafter hafter' hended hopen
    exact status_eq_timedOut_iff.mpr (Or.inl (anyWith_iff.mpr ⟨_, List.mem_map_of_mem hb, hs⟩))
  refine ⟨fun hne => absurd hstatus hne, fun _ => ?_⟩
  -- branch by branch, what there was at the parting is what the two sessions share
  rw [outcome, outcome, List.forall₂_map_left_iff, List.forall₂_map_right_iff,
    List.forall₂_iff_get]
  refine ⟨hlength, fun i hi hi' => ?_⟩
  obtain ⟨b, -, hwinding, hnear, hfar, hbefore⟩ := h.exists_common hctx hreach' horderly hafter
    hafter' (List.getElem?_eq_getElem hi) (List.getElem?_eq_getElem hi')
  have hmem : g'.branches[i] ∈ g'.branches := List.getElem_mem hi
  exact ⟨b.session, shares_of_winding hfinal hmem (hended _ hmem) hwinding hbefore hnear hfar⟩

end Fleet

theorem sideBySide_continuedBy (hctx : far.Postpones near t) (hpos : 0 < t) {registry : Registry}
    {workers : Nat} {references : List AgentReference} {o o' : Outcome}
    (ho : sideBySide near registry workers references = .finished o)
    (ho' : sideBySide far registry workers references = .finished o') : o.ContinuedBy t o' := by
  obtain ⟨hended, rfl⟩ := ended_of_sideBySide ho
  obtain ⟨-, rfl⟩ := ended_of_sideBySide ho'
  have horderly := Fleet.orderly_start registry workers references
  have htwin := Fleet.twin_refl_start t registry workers references
  generalize (Fleet.start registry workers references).work = n at hended ⊢
  rcases htwin.advance hctx hpos horderly n with ⟨htwin, hnow⟩ |
    ⟨f, g, hparting, hbefore, hbefore', hafter, hafter'⟩
  · exact htwin.continuedBy hctx (Fleet.reaches_advance near n _) hnow hended
  · by_cases hopen : ∃ b ∈ g.branches, b.isEnded = false
    · exact hparting.continuedBy hctx hbefore hbefore' hafter hafter' hended hopen
    · -- nobody is left to be cut off
      have hover : ∀ b ∈ g.branches, b.isEnded = true := by simpa using hopen
      have hsame := hparting.twin.eq_of_ended hover
      rw [hafter'.eq_of_ended hover, hafter.eq_of_ended (hsame ▸ hover)]
      exact hparting.twin.continuedBy hctx hbefore' hparting.early hover

/-! ## Runs of definitions -/

theorem ofSpec_continuedBy (hctx : far.Postpones near t) (hpos : 0 < t) (e : Engine)
    {spec : Workflow.Spec} {o o' : Outcome} (ho : ofSpec e near spec = .finished o)
    (ho' : ofSpec e far spec = .finished o') : o.ContinuedBy t o' := by
  unfold ofSpec at ho ho'
  cases hcomposition : spec.composition with
  | sequential | loop =>
    rw [hcomposition] at ho ho'
    exact shared_continuedBy hctx hpos ho ho'
  | parallel =>
    rw [hcomposition] at ho ho'
    exact sideBySide_continuedBy hctx hpos ho ho'

end Run

namespace Engine

/-- The deadline of a timeout comes at a tick after the start, and the one of a longer timeout does
not come before it. -/
theorem exists_postpones (e : Engine) (task : String) {spec spec' : Workflow.Spec}
    {limit : Duration} (hlimit : spec.timeout = some limit) (hpos : 0 < limit.nanos)
    (hlater : ∀ limit', spec'.timeout = some limit' → limit.nanos ≤ limit'.nanos) :
    ∃ t, (Run.signals spec none).deadlineTick? = some t ∧ 0 < t ∧
      (e.context spec' task none).Postpones (e.context spec task none) t := by
  have htick : (Run.signals spec none).deadlineTick? =
      some ((limit.nanos + (Signals.nanosPerTick - 1)) / Signals.nanosPerTick) := by
    rw [Run.signals, hlimit]
    rfl
  refine ⟨_, htick, ?_, rfl, rfl, rfl, rfl, htick, fun t' ht' => ?_⟩
  · unfold Signals.nanosPerTick
    omega
  · obtain ⟨n, hn, rfl⟩ := Option.map_eq_some_iff.mp ht'
    obtain ⟨limit', hlimit', rfl⟩ := Option.map_eq_some_iff.mp hn
    have hle := hlater limit' hlimit'
    exact Nat.div_le_div_right (by omega)

/-- A longer timeout, or none, only extends what a run leaves behind: up to the deadline it is the
same run, and it stays the same if it is over by then. -/
theorem run_continuedBy (e : Engine) {d : Workflow.Definition} {timeout : Option String}
    {task : String} {r r' : Run} {limit : Duration} (hrun : e.run d task none = .ok r)
    (hrun' : e.run { d with timeout } task none = .ok r') (hlimit : r.spec.timeout = some limit)
    (hlater : ∀ limit', r'.spec.timeout = some limit' → limit.nanos ≤ limit'.nanos) :
    ∃ t, (Run.signals r.spec none).deadlineTick? = some t ∧
      r.outcome.ContinuedBy t r'.outcome := by
  obtain ⟨hvalid, -, hending⟩ := e.ofSpec_of_run hrun
  obtain ⟨hvalid', -, hending'⟩ := e.ofSpec_of_run hrun'
  have hpos := Workflow.Definition.pos_of_validate hvalid hlimit
  obtain ⟨t, ht, htpos, hctx⟩ := e.exists_postpones task hlimit hpos hlater
  have hsame : Run.ofSpec e (e.context r'.spec task none) r'.spec =
      Run.ofSpec e (e.context r'.spec task none) r.spec := by
    rw [Workflow.Definition.spec_eq_of_validate hvalid hvalid']
    rfl
  rw [hsame] at hending'
  exact ⟨t, ht, Run.ofSpec_continuedBy hctx htpos e hending hending'⟩

/-- One slot for two branches: the shorter timeout cuts off the first in its call and calls off the
second in the queue, and with the longer one both succeed. -/
theorem run_continuedBy_one_slot :
    let references : List AgentReference := [{ name := "a" }, { name := "b" }]
    let d : Workflow.Definition :=
      { timeout := some "2500us",
        parallel := some { subAgents := references, maxWorkers := some 1 } }
    let slow : Replay := { script := [.ofText "hi", .ofText "there"], delay := 2 }
    let e : Engine :=
      { registry := { agents := [("a", .replay slow), ("b", .replay (.ofText "ok"))] } }
    ∃ r r', e.run d "t" none = .ok r ∧ e.run { d with timeout := some "5ms" } "t" none = .ok r' ∧
      r.spec.timeout = some ⟨2500000⟩ ∧
      (∀ limit', r'.spec.timeout = some limit' → 2500000 ≤ limit'.nanos) ∧
      r.status = .timedOut ∧ r'.status = .succeeded ∧
      ∃ t, (Run.signals r.spec none).deadlineTick? = some t ∧
        r.outcome.ContinuedBy t r'.outcome := by
  intro references d slow e
  have hnear : (e.run d "t" none).toOption.map (fun r => (r.spec.timeout, r.status)) =
      some (some ⟨2500000⟩, .timedOut) := by decide +kernel
  have hfar : (e.run { d with timeout := some "5ms" } "t" none).toOption.map
      (fun r => (r.spec.timeout, r.status)) = some (some ⟨5000000⟩, .succeeded) := by
    decide +kernel
  cases hrun : e.run d "t" none with
  | error fault =>
    rw [hrun] at hnear
    cases hnear
  | ok r =>
    cases hrun' : e.run { d with timeout := some "5ms" } "t" none with
    | error fault =>
      rw [hrun'] at hfar
      cases hfar
    | ok r' =>
      rw [hrun] at hnear
      rw [hrun'] at hfar
      obtain ⟨hlimit, hstatus⟩ := Prod.mk.inj (Option.some.inj hnear)
      obtain ⟨hlimit', hstatus'⟩ := Prod.mk.inj (Option.some.inj hfar)
      have hlater : ∀ limit', r'.spec.timeout = some limit' → 2500000 ≤ limit'.nanos := by
        intro limit' h
        cases hlimit'.symm.trans h
        decide
      exact ⟨r, r', rfl, rfl, hlimit, hlater, hstatus, hstatus',
        e.run_continuedBy hrun hrun' hlimit hlater⟩

end Engine

end Ensemble
