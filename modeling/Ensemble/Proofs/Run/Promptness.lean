import Ensemble.Proofs.Call.Opening
import Ensemble.Proofs.Run.Blame
import Ensemble.Proofs.Run.Readable
import Ensemble.Run.Basic

/-!
Interruptions are sound and prompt.  A run that is going to be interrupted begins no call from its
first signal on and is over at that signal at the latest; and whatever is said to have timed out or
to have been cancelled was so by a signal that had come by then.
-/

namespace Ensemble

/-! ## Invocations that were cut short -/

/-- An invocation that was cut short only by a signal that had come when it ended, or that the
deadline kept from ever having a slot. -/
structure Invocation.SoundlyCut (signals : Signals) (now : Nat) (v : Invocation) : Prop where
  timedOut : v.status = .timedOut → ∃ tick ≤ now, v.finishedAt = some (.ofTick tick) ∧
    signals.deadlinePassed tick = true
  cancelled : v.status = .cancelled → (∃ tick ≤ now, v.finishedAt = some (.ofTick tick) ∧
    signals.isCancelled tick = true) ∨ v.RefusedFor signals .deadlineExceeded

namespace Invocation

variable {signals : Signals} {now : Nat} {v : Invocation}

theorem soundlyCut_of_uncut (h : ¬ v.Interrupted) : v.SoundlyCut signals now :=
  { timedOut := fun hs => absurd (Or.inl hs) h
    cancelled := fun hs => absurd (Or.inr hs) h }

theorem SoundlyCut.later {tick : Nat} (h : v.SoundlyCut signals now) (hle : now ≤ tick) :
    v.SoundlyCut signals tick where
  timedOut := by
    intro hs
    obtain ⟨t, ht, hfinished, hpassed⟩ := h.timedOut hs
    exact ⟨t, ht.trans hle, hfinished, hpassed⟩
  cancelled := by
    intro hs
    refine (h.cancelled hs).imp_left ?_
    rintro ⟨t, ht, hfinished, hcancelled⟩
    exact ⟨t, ht.trans hle, hfinished, hcancelled⟩

/-- Who ends as its call closes takes the tick of the end and has a reason that was there then. -/
theorem cause_of_close {agent : Agent} {stream : Bool} {author id : String} {start tick : Nat}
    {s : Status} {r : Option Response} (hopen : v.status.isTerminal = false)
    (hclose : (Call.trace agent signals stream author id start).close = .closed tick s r)
    (hle : tick ≤ now) :
    ((v.transition now s).status = .timedOut →
        (v.transition now s).finishedAt = some (.ofTick now) ∧
          signals.deadlinePassed now = true) ∧
      ((v.transition now s).status = .cancelled →
        (v.transition now s).finishedAt = some (.ofTick now) ∧ signals.isCancelled now = true) := by
  rw [status_transition _ _ _ hopen, finishedAt_transition _ _ _ hopen]
  rcases Call.close_cause hclose with (rfl | rfl) | ⟨why, rfl, hwhy⟩
  · exact ⟨nofun, nofun⟩
  · exact ⟨nofun, nofun⟩
  · cases why with
    | cancelled =>
      have hcancelled := Signals.interrupt?_eq_cancelled_iff.mp hwhy
      exact ⟨nofun, fun _ => ⟨rfl, Signals.isCancelled_mono hcancelled hle⟩⟩
    | deadline =>
      have hpassed := (Signals.interrupt?_eq_deadline_iff.mp hwhy).2
      exact ⟨fun _ => ⟨rfl, Signals.deadlinePassed_mono hpassed hle⟩, nofun⟩

end Invocation

namespace Run

/-! ## One after the other -/

namespace Course

variable {ctx : Context} {stop : StopRule} {p q : Progress} {plan : List Planned}
  {turns : List Turn} {s : Status}

theorem tick_le {limit : Nat} (h : Course ctx stop p plan turns q s)
    (hfirst : ctx.signals.first? = some limit) (hp : p.tick ≤ limit) : q.tick ≤ limit := by
  -- the close of every turn comes by the first signal
  have hturn {p : Progress} {next : Planned} {tick : Nat} {s : Status} {r : Option Response}
      (hcalm : ctx.signals.interruption? p.tick = none)
      (hclose : (Turn.step ctx ⟨p, next⟩).close = .closed tick s r) : tick ≤ limit := by
    have hlt := Signals.lt_of_calm (Signals.interruption?_eq_none_iff.mp hcalm) hfirst
    have hby : (Step.trace ctx next.agent (Turn.pending ⟨p, next⟩) p.tick).By limit :=
      Call.trace_by _ _ _ _ hfirst (Nat.le_of_lt hlt)
    refine hby.2 tick ?_
    have htrace : (Step.trace ctx next.agent (Turn.pending ⟨p, next⟩) p.tick).close =
      .closed tick s r := hclose
    rw [htrace]
    rfl
  induction h with
  | finished => exact hp
  | interrupted => exact hp
  | ended hcalm hclose => exact hturn hcalm hclose
  | more hcalm hclose _ _ ih => exact ih (hturn hcalm hclose)

theorem status_cause (h : Course ctx stop p plan turns q s) :
    (s = .timedOut → ctx.signals.deadlinePassed q.tick = true) ∧
      (s = .cancelled → ctx.signals.isCancelled q.tick = true) := by
  induction h with
  | finished => exact ⟨nofun, nofun⟩
  | interrupted hinterrupt =>
    constructor
    · rintro rfl
      exact Signals.deadlinePassed_of_interruption? hinterrupt
    · rintro rfl
      exact Signals.isCancelled_of_interruption? hinterrupt
  | @ended p next rest tick s r _ hclose =>
    rcases Call.close_cause hclose with (rfl | rfl) | ⟨why, rfl, hwhy⟩
    · exact ⟨nofun, nofun⟩
    · exact ⟨nofun, nofun⟩
    · cases why with
      | cancelled => exact ⟨nofun, fun _ => Signals.interrupt?_eq_cancelled_iff.mp hwhy⟩
      | deadline => exact ⟨fun _ => (Signals.interrupt?_eq_deadline_iff.mp hwhy).2, nofun⟩
  | more _ _ _ _ ih => exact ih

theorem invocation_cause (h : Course ctx stop p plan turns q s) :
    ∀ t ∈ turns, ((t.invocation ctx).status = .timedOut →
        (t.invocation ctx).finishedAt = some (.ofTick q.tick) ∧
          ctx.signals.deadlinePassed q.tick = true) ∧
      ((t.invocation ctx).status = .cancelled →
        (t.invocation ctx).finishedAt = some (.ofTick q.tick) ∧
          ctx.signals.isCancelled q.tick = true) := by
  -- a turn that was cut short is the last one
  induction h with
  | finished => intro t ht; cases ht
  | interrupted => intro t ht; cases ht
  | @ended p next rest tick s r _ hclose =>
    intro t ht
    rw [List.mem_singleton.mp ht, Turn.invocation_of_close hclose]
    have hopen := Turn.isTerminal_running ⟨p, next⟩
    exact Invocation.cause_of_close hopen hclose (Nat.le_refl tick)
  | more _ hclose _ _ ih =>
    intro t ht
    rcases List.mem_cons.mp ht with rfl | ht
    · rw [Turn.status_of_close hclose]
      exact ⟨nofun, nofun⟩
    · exact ih t ht

/-- Every call of a run begins before anything interrupts. -/
theorem calm_of_begins (h : Course ctx stop p plan turns q s) {e : Event}
    (he : e ∈ q.session.events) (hbegins : e.draft.begins = true) :
    e ∈ p.session.events ∨
      ∃ tick, e.timestamp = .ofTick tick ∧ ctx.signals.interrupt? tick = none := by
  have hturn {p : Progress} {next : Planned} {tick : Nat}
      (hcalm : ctx.signals.interruption? p.tick = none)
      (he : e ∈ (p.add tick (Turn.step ctx ⟨p, next⟩)).session.events) :
      e ∈ p.session.events ∨
        ∃ tick, e.timestamp = .ofTick tick ∧ ctx.signals.interrupt? tick = none := by
    refine (Session.mem_events_appendAll he).imp_right ?_
    rintro ⟨d, hd, hstamp, hdraft⟩
    obtain ⟨rest, hdrafts, hrest⟩ := Call.exists_drafts_eq next.agent ctx.signals ctx.stream
      (Turn.pending ⟨p, next⟩).author (Turn.pending ⟨p, next⟩).id p.tick
    have hd : d ∈ (Call.trace next.agent ctx.signals ctx.stream (Turn.pending ⟨p, next⟩).author
      (Turn.pending ⟨p, next⟩).id p.tick).drafts := hd
    rw [hdrafts] at hd
    rcases List.mem_cons.mp hd with rfl | hd
    · exact ⟨p.tick, hstamp, Signals.interruption?_eq_none_iff.mp hcalm⟩
    · rw [hdraft, hrest d hd] at hbegins
      cases hbegins
  induction h with
  | finished => exact Or.inl he
  | interrupted => exact Or.inl he
  | ended hcalm => exact hturn hcalm he
  | more hcalm _ _ _ ih =>
    rcases ih he with he | hcause
    · exact hturn hcalm he
    · exact Or.inr hcause

end Course

/-! ## Side by side -/

namespace Branch

/-- A branch of a run that lets no tick pass at which somebody can act: a call that has not shown
anything yet begins now. -/
structure Punctual (ctx : Context) (now : Nat) (b : Branch) : Prop where
  standing : b.Standing ctx now
  opening : ∀ rest close, b.phase = .calling rest close → b.session.drafts = [] →
    ∃ d more, rest = (now, d) :: more
  begun : ∀ e ∈ b.session.events, e.draft.begins = true →
    ∃ tick, e.timestamp = .ofTick tick ∧ ctx.signals.interrupt? tick = none
  cut : b.invocation.SoundlyCut ctx.signals now

variable {ctx : Context} {now : Nat} {b b' : Branch}

theorem punctual_start (ctx : Context) (registry : Registry) (position : Nat) (r : AgentReference) :
    (start registry position r).Punctual ctx 0 where
  standing := (isFor_start ctx registry position r).standing
  opening := fun _ _ hphase => nomatch hphase
  begun := fun e he => by cases he
  cut := Invocation.soundlyCut_of_uncut (by rintro (h | h) <;> cases h)

namespace Punctual

theorem later {tick : Nat} (h : b.Punctual ctx now) (hle : now ≤ tick)
    (hdue : ∀ t, b.dueAt ctx.signals now = some t → tick ≤ t) : b.Punctual ctx tick where
  standing := h.standing.later hle
  opening := by
    -- such a call could act now, so the clock cannot have moved
    intro rest close hphase hempty
    obtain ⟨d, more, rfl⟩ := h.opening rest close hphase hempty
    have hnow : tick ≤ max now now := hdue _ (by rw [dueAt, hphase])
    have htick : tick = now := by omega
    exact ⟨d, more, by rw [htick]⟩
  begun := h.begun
  cut := h.cut.later hle

theorem giveUp {agent : Agent} {why : Interrupt} (h : b.Punctual ctx now) (huntouched : b.Untouched)
    (hagent : b.agent = .ok agent) (hwhy : ctx.signals.interrupt? now = some why) :
    (b.giveUp now).Punctual ctx now where
  standing := Standing.giveUp huntouched hagent hwhy
  opening := fun _ _ hphase => nomatch hphase
  begun := h.begun
  cut := by
    obtain ⟨⟨-, hpending⟩, hstarted⟩ := huntouched
    have hopen : b.invocation.status.isTerminal = false := by rw [hpending]; rfl
    have hstatus := Invocation.status_transition b.invocation now .cancelled hopen
    have hfinished := Invocation.finishedAt_transition b.invocation now .cancelled hopen
    have hnever := Invocation.startedAt_transition b.invocation now .cancelled hopen
    refine ⟨fun hs => absurd (hs.symm.trans hstatus) nofun, fun _ => ?_⟩
    cases why with
    | cancelled =>
      exact Or.inl ⟨now, Nat.le_refl now, hfinished, Signals.interrupt?_eq_cancelled_iff.mp hwhy⟩
    | deadline =>
      refine Or.inr ⟨hstatus, hnever.trans hstarted, now, hfinished, fun p who => ?_⟩
      rw [hwhy]
      exact Pool.acquire_eq_refused_iff.mpr rfl

theorem add {tick : Nat} {d : EventDraft} {rest : List (Nat × EventDraft)} {close : Close}
    (h : b.Punctual ctx now) (hphase : b.phase = .calling ((tick, d) :: rest) close) :
    Punctual ctx now
      { b with session := b.session.append now d, phase := .calling rest close } where
  standing := h.standing.add hphase
  opening := by
    intro _ _ _ hempty
    rw [Session.drafts_append] at hempty
    exact absurd hempty (List.append_ne_nil_of_right_ne_nil _ (List.cons_ne_nil _ _))
  begun := by
    intro e he hbegins
    rcases List.mem_append.mp he with he | he
    · exact h.begun e he hbegins
    · rw [List.mem_singleton.mp he] at hbegins ⊢
      obtain ⟨agent, start, hcalls⟩ := h.standing.calls hphase
      obtain ⟨done, htrace, hdone⟩ := hcalls.drafts
      obtain ⟨more, hdrafts, hmore⟩ := Call.exists_drafts_eq agent ctx.signals ctx.stream
        b.invocation.author b.invocation.id start
      rw [Step.trace, hdrafts] at htrace
      cases done with
      | nil =>
        -- it is the first event of the call, which is added as soon as the call begins
        obtain ⟨d', more', hnow⟩ := h.opening _ _ hphase hdone
        rw [List.nil_append, hnow, List.cons.injEq, Prod.mk.injEq] at htrace
        exact ⟨now, rfl, htrace.1.1 ▸ hcalls.calm⟩
      | cons first done =>
        rw [List.cons_append, List.cons.injEq] at htrace
        have hlater : (tick, d) ∈ more := by
          rw [htrace.2]
          exact List.mem_append_right _ List.mem_cons_self
        have hquiet : d.begins = false := hmore _ hlater
        cases hbegins.symm.trans hquiet
  cut := h.cut

/-- A branch that moves stays punctual. -/
theorem move (h : b.Punctual ctx now) (hmove : b.Moves ctx now b') : b'.Punctual ctx now := by
  have hstanding := h.standing.move hmove
  cases hmove with
  | @failed e hphase hagent =>
    obtain ⟨⟨hlog, hpending⟩, -⟩ := h.standing.untouched (Or.inl hphase)
    refine ⟨hstanding, (fun _ _ hended => by cases hended), ?_, ?_⟩
    · intro e' he' hbegins
      have hdraft : e'.draft ∈ (b.fail now e).session.drafts := List.mem_map_of_mem he'
      rw [Branch.fail, Session.drafts_append, Session.drafts_append, hlog, List.nil_append] at hdraft
      rcases List.mem_pair.mp hdraft with hdraft | hdraft <;> rw [hdraft] at hbegins <;> cases hbegins
    · have hfailed : (b.fail now e).invocation.status = .failed :=
        Invocation.status_transition _ _ _ (by rw [hpending]; rfl)
      exact Invocation.soundlyCut_of_uncut (by
        rintro (hs | hs) <;> cases hs.symm.trans hfailed)
  | refused hphase hagent hwhy =>
    exact h.giveUp (h.standing.untouched (hphase.imp_right Or.inr)) hagent hwhy
  | left hphase hwhy =>
    obtain ⟨agent, hagent⟩ := h.standing.resolved hphase
    exact h.giveUp (h.standing.untouched (Or.inr (Or.inl hphase))) hagent hwhy
  | queued | granted => exact ⟨hstanding, (fun _ _ hwaits => by cases hwaits), h.begun, h.cut⟩
  | @began agent hphase hagent hcalm =>
    obtain ⟨⟨hlog, hpending⟩, -⟩ := h.standing.untouched (hphase.imp_right Or.inr)
    obtain ⟨more, hdrafts, -⟩ := Call.exists_drafts_eq agent ctx.signals ctx.stream
      b.invocation.author b.invocation.id now
    refine ⟨hstanding, ?_, h.begun, ?_⟩
    · intro rest close hcalling _
      cases hcalling
      exact ⟨_, more, hdrafts⟩
    · have hrunning : (b.begin ctx agent now).invocation.status = .running :=
        Invocation.status_transition _ _ _ (by rw [hpending]; rfl)
      exact Invocation.soundlyCut_of_uncut (by
        rintro (hs | hs) <;> cases hs.symm.trans hrunning)
  | added hphase => exact h.add hphase
  | closed hphase htick =>
    obtain ⟨agent, start, hcalls⟩ := h.standing.calls hphase
    have hopen : b.invocation.status.isTerminal = false := by rw [hcalls.running]; rfl
    obtain ⟨htimedOut, hcancelled⟩ := Invocation.cause_of_close hopen hcalls.close htick
    refine ⟨hstanding, (fun _ _ hended => by cases hended), h.begun, ?_, ?_⟩
    · exact fun hs => ⟨now, Nat.le_refl now, htimedOut hs⟩
    · exact fun hs => Or.inl ⟨now, Nat.le_refl now, hcancelled hs⟩
  | crashed hphase =>
    exact ⟨hstanding, (fun _ _ hended => by cases hended), h.begun,
      Invocation.soundlyCut_of_uncut (by rintro (hs | hs) <;> cases hs)⟩

end Punctual

/-- Who was refused a slot has left nothing in its session. -/
theorem Fate.drafts_of_refused {why : Pool.Refusal} (h : b.Fate ctx now)
    (hrefused : b.invocation.RefusedFor ctx.signals why) : b.session.drafts = [] := by
  obtain ⟨hcancelled, hnever, -⟩ := hrefused
  cases h with
  | unresolved hagent hstatus => cases hcancelled.symm.trans hstatus
  | gaveUp _ _ _ _ _ _ hlog => exact hlog
  | closed _ _ _ _ _ hstarted => cases hnever.symm.trans hstarted
  | crashed hagent hstatus => cases hcancelled.symm.trans hstatus

end Branch

theorem Fleet.isCancelled_of_status {f : Fleet} {signals : Signals}
    (h : f.status signals = .cancelled) : signals.isCancelled f.now = true := by
  unfold status at h
  split at h
  · cases h
  · split at h
    · next hcancelled => exact (Bool.and_eq_true _ _ ▸ hcancelled).1
    · split at h <;> cases h

/-- All branches of a run itself are punctual. -/
theorem Fleet.punctual_advance (ctx : Context) (registry : Registry) (workers : Nat)
    (references : List AgentReference) (n : Nat) :
    ∀ b ∈ (advance ctx n (start registry workers references)).branches,
      b.Punctual ctx (advance ctx n (start registry workers references)).now := by
  refine forall_mem_advance (Q := fun now b => b.Punctual ctx now)
    (fun _ _ _ hle hdue h => h.later hle hdue) (fun _ _ _ h hmove => h.move hmove)
    (orderly_start registry workers references) ?_ n
  intro b hb
  obtain ⟨i, hi, rfl⟩ := List.mem_mapIdx.mp hb
  exact Branch.punctual_start ctx registry i _

theorem MayEndWith.status_cause {ctx : Context} {registry : Registry} {workers : Nat}
    {references : List AgentReference} {o : Outcome}
    (h : MayEndWith ctx registry workers references o) :
    (o.status = .timedOut → ctx.signals.deadlinePassed o.tick = true) ∧
      (o.status = .cancelled → ctx.signals.isCancelled o.tick = true) := by
  constructor
  · intro hs
    rcases h.status_eq_timedOut_iff.mp hs with ⟨v, hv, htimedOut⟩ | ⟨-, hpassed⟩
    · obtain ⟨tick, htick, hwhy⟩ := (h.ended hv).deadline_of_timedOut htimedOut
      exact Signals.deadlinePassed_mono (Signals.interrupt?_eq_deadline_iff.mp hwhy).2 htick
    · exact hpassed
  · obtain ⟨f, -, -, rfl⟩ := h
    exact Fleet.isCancelled_of_status

/-! ## Runs of definitions -/

/-- What the signals make of a run, when the first of them comes at a tick: it is over by then and
begins nothing from then on, and it blames a signal, for itself or for one of its invocations, only
when that signal has come. -/
structure Prompt (spec : Workflow.Spec) (cancelAt : Option Nat) (first : Nat) (o : Outcome) :
    Prop where
  overBy : o.tick ≤ first
  begun : ∀ s ∈ o.sessions, ∀ e ∈ s.events, e.draft.begins = true →
    ∃ tick < first, e.timestamp = .ofTick tick
  timedOut : o.status = .timedOut →
    ∃ d, spec.timeout = some d ∧ d.nanos ≤ o.tick * Signals.nanosPerTick
  cancelled : o.status = .cancelled → ∃ c ≤ o.tick, cancelAt = some c
  cutByDeadline : ∀ v ∈ o.invocations, v.status = .timedOut →
    ∃ tick ≤ o.tick, v.finishedAt = some (.ofTick tick) ∧
      (signals spec cancelAt).deadlinePassed tick = true
  cutByToken : ∀ v ∈ o.invocations, v.status = .cancelled →
    (∃ tick ≤ o.tick, v.finishedAt = some (.ofTick tick) ∧
        (signals spec cancelAt).isCancelled tick = true) ∨
      ((∃ workers, spec.composition = .parallel workers) ∧
        v.RefusedFor (signals spec cancelAt) .deadlineExceeded ∧
          ∃ s ∈ o.sessions, s.id = v.sessionId ∧ s.events = [])

section Prompt

variable {spec : Workflow.Spec} {cancelAt : Option Nat} {first : Nat} {ctx : Context}
  {registry : Registry} {o : Outcome}

theorem timeout_of_deadlinePassed {tick : Nat}
    (h : (signals spec cancelAt).deadlinePassed tick = true) :
    ∃ d, spec.timeout = some d ∧ d.nanos ≤ tick * Signals.nanosPerTick := by
  rw [Signals.deadlinePassed, Option.any_eq_true] at h
  obtain ⟨n, hn, hle⟩ := h
  obtain ⟨d, hd, rfl⟩ := Option.map_eq_some_iff.mp hn
  exact ⟨d, hd, of_decide_eq_true hle⟩

theorem cancelAt_of_isCancelled {tick : Nat}
    (h : (signals spec cancelAt).isCancelled tick = true) : ∃ c ≤ tick, cancelAt = some c := by
  obtain ⟨c, hc, hle⟩ := Signals.isCancelled_iff.mp h
  exact ⟨c, hle, hc⟩

theorem prompt_shared {stop : StopRule} {passes : Option Nat}
    (hsignals : ctx.signals = signals spec cancelAt) (hfirst : ctx.signals.first? = some first)
    (h : shared ctx registry stop passes spec.subAgents = .finished o) :
    Prompt spec cancelAt first o := by
  rcases shared_cases h with ⟨r, e, -, rfl⟩ | ⟨agents, turns, q, s, -, hcourse, hfinish⟩
  · -- the only event is the error of the reference, and nothing was invoked
    refine ⟨Nat.zero_le first, ?_, nofun, nofun, ?_, ?_⟩
    · intro s hs e' he' hbegins
      rw [List.mem_singleton.mp hs] at he'
      rw [List.mem_singleton.mp he'] at hbegins
      cases hbegins
    · exact fun v hv => (List.not_mem_nil hv).elim
    · exact fun v hv => (List.not_mem_nil hv).elim
  · obtain ⟨hstatus, hsessions, hinvocations⟩ := hcourse.outcome_eq rfl hfinish
    have htick : o.tick = q.tick := by
      cases hfinish
      rfl
    obtain ⟨htimedOut, hcancelled⟩ := hcourse.status_cause
    have hcause := hcourse.invocation_cause
    rw [hsignals] at htimedOut hcancelled hcause
    constructor
    case overBy =>
      rw [htick]
      exact hcourse.tick_le hfirst (Nat.zero_le first)
    case begun =>
      intro s hs e he hbegins
      rw [hsessions] at hs
      rw [List.mem_singleton.mp hs] at he
      rcases hcourse.calm_of_begins he hbegins with hnew | ⟨tick, hstamp, hcalm⟩
      · cases hnew
      · exact ⟨tick, Signals.lt_of_calm hcalm hfirst, hstamp⟩
    case timedOut =>
      intro hs
      rw [htick]
      exact timeout_of_deadlinePassed (htimedOut (hstatus.symm.trans hs))
    case cancelled =>
      intro hs
      rw [htick]
      exact cancelAt_of_isCancelled (hcancelled (hstatus.symm.trans hs))
    case cutByDeadline =>
      intro v hv hs
      rw [hinvocations] at hv
      obtain ⟨t, ht, rfl⟩ := List.mem_map.mp hv
      exact ⟨q.tick, Nat.le_of_eq htick.symm, (hcause t ht).1 hs⟩
    case cutByToken =>
      intro v hv hs
      rw [hinvocations] at hv
      obtain ⟨t, ht, rfl⟩ := List.mem_map.mp hv
      exact Or.inl ⟨q.tick, Nat.le_of_eq htick.symm, (hcause t ht).2 hs⟩

theorem prompt_sideBySide {workers : Nat} (hparallel : spec.composition = .parallel workers)
    (hsignals : ctx.signals = signals spec cancelAt) (hfirst : ctx.signals.first? = some first)
    (h : sideBySide ctx registry workers spec.subAgents = .finished o) :
    Prompt spec cancelAt first o := by
  obtain ⟨htimedOut, hcancelled⟩ := (mayEndWith_of_sideBySide h).status_cause
  obtain ⟨hended, rfl⟩ := ended_of_sideBySide h
  have hpunctual := Fleet.punctual_advance ctx registry workers spec.subAgents
    (Fleet.start registry workers spec.subAgents).work
  have hreach := Fleet.reaches_advance ctx (Fleet.start registry workers spec.subAgents).work
    (Fleet.start registry workers spec.subAgents)
  constructor
  case overBy => exact hreach.now_le hfirst
  case begun =>
    intro s hs e he hbegins
    obtain ⟨b, hb, rfl⟩ := List.mem_map.mp hs
    obtain ⟨tick, hstamp, hcalm⟩ := (hpunctual b hb).begun e he hbegins
    exact ⟨tick, Signals.lt_of_calm hcalm hfirst, hstamp⟩
  case timedOut => exact fun hs => timeout_of_deadlinePassed (hsignals ▸ htimedOut hs)
  case cancelled => exact fun hs => cancelAt_of_isCancelled (hsignals ▸ hcancelled hs)
  case cutByDeadline =>
    intro v hv hs
    obtain ⟨b, hb, rfl⟩ := List.mem_map.mp hv
    exact hsignals ▸ (hpunctual b hb).cut.timedOut hs
  case cutByToken =>
    intro v hv hs
    obtain ⟨b, hb, rfl⟩ := List.mem_map.mp hv
    rw [← hsignals]
    refine ((hpunctual b hb).cut.cancelled hs).imp_right fun hrefused => ?_
    have hempty := ((hpunctual b hb).standing.fate (hended b hb)).drafts_of_refused hrefused
    obtain ⟨i, r, -, -, hfor⟩ := hreach.exists_isFor hb
    exact ⟨⟨workers, hparallel⟩, hrefused, b.session, List.mem_map_of_mem hb,
      hfor.session.symm, List.map_eq_nil_iff.mp hempty⟩

/-- A run of agents that do not crash finishes, if anything is going to interrupt it. -/
theorem ofSpec_finishes (e : Engine) (ctx : Context) (spec : Workflow.Spec)
    (hlive : ∀ r ∈ spec.subAgents, e.registry.resolve r ≠ .ok .crashing)
    (hsignals : ctx.signals ≠ {}) : ∃ o, ofSpec e ctx spec = .finished o := by
  rcases ofSpec_cases e ctx spec with ⟨passes, -, hrun⟩ | ⟨workers, -, hrun⟩
  · rw [hrun]
    exact shared_finishes e.stop passes hlive hsignals
  · rw [hrun]
    exact (sideBySide_cases ctx e.registry workers spec.subAgents).resolve_right
      fun h => hsignals h.2

theorem ofSpec_prompt {e : Engine} (hsignals : ctx.signals = signals spec cancelAt)
    (hfirst : ctx.signals.first? = some first) (h : ofSpec e ctx spec = .finished o) :
    Prompt spec cancelAt first o := by
  rcases ofSpec_cases e ctx spec with ⟨passes, -, hrun⟩ | ⟨workers, hparallel, hrun⟩
  · rw [hrun] at h
    exact prompt_shared hsignals hfirst h
  · rw [hrun] at h
    exact prompt_sideBySide hparallel hsignals hfirst h

end Prompt

end Run

/-- A run of agents that do not crash is interrupted soundly and in time: if the first signal comes
before all waiting is given up, the run comes to its end by then, hanging agents or not. -/
theorem Engine.run_prompt (e : Engine) {d : Workflow.Definition} {spec : Workflow.Spec}
    (task : String) {cancelAt : Option Nat} {first : Nat}
    (hvalid : d.validate e.defaultMaxWorkers = .ok spec)
    (hlive : ∀ r ∈ spec.subAgents, e.registry.resolve r ≠ .ok .crashing)
    (hfirst : (Run.signals spec cancelAt).first? = some first) (hseen : first < horizon) :
    ∃ r, e.run d task cancelAt = .ok r ∧ Run.Prompt spec cancelAt first r.outcome := by
  have hsignals : Run.signals spec cancelAt ≠ {} := by
    intro hnone
    rw [hnone] at hfirst
    cases hfirst
  obtain ⟨o, ho⟩ := Run.ofSpec_finishes e (e.context spec task cancelAt) spec hlive hsignals
  have hprompt := Run.ofSpec_prompt rfl hfirst ho
  have hend : (Run.signals spec cancelAt).seesEnd o.tick = true := by
    rw [Signals.seesEnd, Bool.or_eq_true]
    exact Or.inr (decide_eq_true (Nat.lt_of_le_of_lt hprompt.overBy hseen))
  refine ⟨{ id := "run-1", spec, task, outcome := o }, ?_, hprompt⟩
  rw [e.run_of_validate task cancelAt hvalid, ho, Run.record, if_pos hend]

/-- One slot for an agent that hangs and one in the queue, with a deadline that passes between two
ticks: the first is cut at the next tick, and the second never begins. -/
theorem Engine.run_prompt_queued :
    let references : List AgentReference := [{ name := "a" }, { name := "b" }]
    let d : Workflow.Definition :=
      { timeout := some "2500us",
        parallel := some { subAgents := references, maxWorkers := some 1 } }
    let spec : Workflow.Spec :=
      { description := none, timeout := some ⟨2500000⟩, composition := .parallel 1,
        subAgents := references }
    let hanging : Replay := { script := [.ofText "hi"], delay := 1, tail := .hang }
    let e : Engine :=
      { registry := { agents := [("a", .replay hanging), ("b", .replay (.ofText "ok"))] } }
    d.validate e.defaultMaxWorkers = .ok spec ∧
      (∀ r ∈ spec.subAgents, e.registry.resolve r ≠ .ok .crashing) ∧
      (Run.signals spec none).first? = some 3 ∧ 3 < horizon ∧
      ∃ r, e.run d "t" none = .ok r ∧ Run.Prompt spec none 3 r.outcome := by
  intro references d spec hanging e
  have hvalid : d.validate e.defaultMaxWorkers = .ok spec := by decide +kernel
  have hlive : ∀ r ∈ spec.subAgents, e.registry.resolve r ≠ .ok .crashing := by decide +kernel
  have hfirst : (Run.signals spec none).first? = some 3 := by decide
  have hseen : 3 < horizon := by decide
  exact ⟨hvalid, hlive, hfirst, hseen, e.run_prompt "t" hvalid hlive hfirst hseen⟩

end Ensemble
