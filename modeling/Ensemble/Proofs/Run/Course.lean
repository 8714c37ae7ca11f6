import Ensemble.Proofs.Call.Block
import Ensemble.Proofs.Call.Cause
import Ensemble.Proofs.Invocation
import Ensemble.Proofs.Session.Log
import Ensemble.Run.Shared
import Mathlib.Data.List.Basic

/-!
The course of a run that shares one session, turn by turn.  A run goes on as long as its turns
succeed and none of them asks to stop; everything that it leaves behind can be told from its turns.
-/

namespace Ensemble.Run

/-- What a run had done before one of its invocations, and what was planned for it. -/
structure Turn where
  before : Progress
  planned : Planned

namespace Turn

variable (ctx : Context) (stop : StopRule) (t : Turn)

def pending : Invocation :=
  t.before.nextInvocation t.planned.iteration t.planned.reference

def step : Step :=
  Step.take ctx t.planned.agent t.pending t.before.session t.before.tick

def invocation : Invocation :=
  (t.step ctx).invocation

def log : List EventDraft :=
  (Step.trace ctx t.planned.agent t.pending t.before.tick).drafts.map Prod.snd

def response? : Option Response :=
  match (t.step ctx).close with
  | .closed _ _ r => r
  | _ => none

def asksToStop : Bool :=
  t.planned.iteration.isSome && (t.response? ctx).any stop.stops

/-- A turn after which a run may go on. -/
def GoesOn : Prop :=
  (t.invocation ctx).status = .succeeded ∧ t.asksToStop ctx stop = false

end Turn

/-- How a plan is carried out from a progress on: its turns, what there is in the end, and the
status of the run. -/
inductive Course (ctx : Context) (stop : StopRule) :
    Progress → List Planned → List Turn → Progress → Status → Prop
  | finished (p : Progress) : Course ctx stop p [] [] p .succeeded
  | interrupted {p : Progress} {next : Planned} {rest : List Planned} {s : Status}
      (hinterrupt : ctx.signals.interruption? p.tick = some s) :
      Course ctx stop p (next :: rest) [] p s
  | ended {p : Progress} {next : Planned} {rest : List Planned} {tick : Nat} {s : Status}
      {r : Option Response} (hcalm : ctx.signals.interruption? p.tick = none)
      (hclose : (Turn.step ctx ⟨p, next⟩).close = .closed tick s r)
      (hend : s ≠ .succeeded ∨ s = .succeeded ∧ Turn.asksToStop ctx stop ⟨p, next⟩ = true) :
      Course ctx stop p (next :: rest) [⟨p, next⟩] (p.add tick (Turn.step ctx ⟨p, next⟩)) s
  | more {p q : Progress} {next : Planned} {rest : List Planned} {turns : List Turn} {tick : Nat}
      {s : Status} {r : Option Response} (hcalm : ctx.signals.interruption? p.tick = none)
      (hclose : (Turn.step ctx ⟨p, next⟩).close = .closed tick .succeeded r)
      (hgo : Turn.asksToStop ctx stop ⟨p, next⟩ = false)
      (hrest : Course ctx stop (p.add tick (Turn.step ctx ⟨p, next⟩)) rest turns q s) :
      Course ctx stop p (next :: rest) (⟨p, next⟩ :: turns) q s

variable {ctx : Context} {stop : StopRule}

theorem runPlan_cons (p : Progress) (next : Planned) (rest : List Planned) :
    runPlan ctx stop p (next :: rest) =
      match ctx.signals.interruption? p.tick with
      | some s => p.finish s
      | none =>
        match (Turn.step ctx ⟨p, next⟩).close with
        | .crashed tick => .aborted tick
        | .never => .hang
        | .closed tick s r =>
          if s ≠ .succeeded then (p.add tick (Turn.step ctx ⟨p, next⟩)).finish s
          else if next.iteration.isSome && r.any stop.stops then
            (p.add tick (Turn.step ctx ⟨p, next⟩)).finish .succeeded
          else runPlan ctx stop (p.add tick (Turn.step ctx ⟨p, next⟩)) rest := rfl

section Turn

variable {p : Progress} {next : Planned} {rest : List Planned} {tick : Nat} {s : Status}
  {r : Option Response} (hcalm : ctx.signals.interruption? p.tick = none)

include hcalm

/-- A turn that fails ends the run, and so does one that asks to stop. -/
theorem runPlan_of_ended (hclose : (Turn.step ctx ⟨p, next⟩).close = .closed tick s r)
    (hend : s ≠ .succeeded ∨ s = .succeeded ∧ Turn.asksToStop ctx stop ⟨p, next⟩ = true) :
    runPlan ctx stop p (next :: rest) = (p.add tick (Turn.step ctx ⟨p, next⟩)).finish s := by
  rw [Turn.asksToStop, Turn.response?, hclose] at hend
  rw [runPlan_cons, hcalm]
  simp only [hclose]
  rcases hend with hs | ⟨rfl, hstop⟩
  · rw [if_pos hs]
  · rw [if_neg (not_not_intro rfl), if_pos hstop]

theorem runPlan_of_goesOn (hclose : (Turn.step ctx ⟨p, next⟩).close = .closed tick .succeeded r)
    (hgo : Turn.asksToStop ctx stop ⟨p, next⟩ = false) :
    runPlan ctx stop p (next :: rest) =
      runPlan ctx stop (p.add tick (Turn.step ctx ⟨p, next⟩)) rest := by
  rw [Turn.asksToStop, Turn.response?, hclose] at hgo
  rw [runPlan_cons, hcalm]
  simp only [hclose]
  rw [if_neg (not_not_intro rfl), if_neg (Bool.eq_false_iff.mp hgo)]

end Turn

/-- A course says how the run goes. -/
theorem Course.runPlan_eq {p q : Progress} {plan : List Planned} {turns : List Turn} {s : Status}
    (h : Course ctx stop p plan turns q s) : runPlan ctx stop p plan = q.finish s := by
  induction h with
  | finished => rfl
  | interrupted hinterrupt => rw [runPlan_cons, hinterrupt]
  | ended hcalm hclose hend => exact runPlan_of_ended hcalm hclose hend
  | more hcalm hclose hgo _ ih => exact (runPlan_of_goesOn hcalm hclose hgo).trans ih

theorem runPlan_stop {plan : List Planned} (hplan : ∀ x ∈ plan, x.iteration = none)
    (stop' : StopRule) (p : Progress) : runPlan ctx stop' p plan = runPlan ctx stop p plan := by
  -- the rule is only asked about the steps of a loop
  induction plan generalizing p with
  | nil => rfl
  | cons next rest ih =>
    rw [List.forall_mem_cons] at hplan
    simp only [runPlan_cons, hplan.1, Option.isSome_none, Bool.false_and, Bool.false_eq_true,
      if_false, ih hplan.2]

namespace Turn

variable {t : Turn} {tick : Nat} {s : Status} {r : Option Response}

theorem response?_of_close (hclose : (t.step ctx).close = .closed tick s r) :
    t.response? ctx = r := by
  rw [response?, hclose]

theorem invocation_of_close (hclose : (t.step ctx).close = .closed tick s r) :
    t.invocation ctx = (t.pending.transition t.before.tick .running).transition tick s := by
  have hsettle : t.invocation ctx =
      Step.settle (t.pending.transition t.before.tick .running) (t.step ctx).close := rfl
  rw [hsettle, hclose, Step.settle]

theorem isTerminal_running (t : Turn) :
    (t.pending.transition t.before.tick .running).status.isTerminal = false := by
  rw [Invocation.status_transition _ _ _ rfl]
  rfl

theorem status_of_close (hclose : (t.step ctx).close = .closed tick s r) :
    (t.invocation ctx).status = s := by
  rw [invocation_of_close hclose, Invocation.status_transition _ _ _ t.isTerminal_running]

/-- An invocation is over when its call is. -/
theorem finishedAt_of_close (hclose : (t.step ctx).close = .closed tick s r) :
    (t.invocation ctx).finishedAt = some (.ofTick tick) := by
  rw [invocation_of_close hclose, Invocation.finishedAt_transition _ _ _ t.isTerminal_running,
    if_pos (Call.isTerminal_of_close hclose)]

theorem block (hagent : t.planned.agent ≠ .crashing)
    (hclose : (t.step ctx).close = .closed tick s r) :
    Block (t.invocation ctx).author (t.invocation ctx).id (t.invocation ctx).status
      (t.response? ctx) (t.log ctx) := by
  rw [status_of_close hclose, response?_of_close hclose, invocation_of_close hclose,
    Invocation.author_transition, Invocation.author_transition, Invocation.id_transition,
    Invocation.id_transition]
  exact Call.trace_block hagent hclose

end Turn

theorem Progress.drafts_add (p : Progress) (next : Planned) (tick : Nat) :
    (p.add tick (Turn.step ctx ⟨p, next⟩)).session.drafts =
      p.session.drafts ++ Turn.log ctx ⟨p, next⟩ :=
  Session.drafts_appendAll p.session _

namespace Course

variable {p q : Progress} {plan : List Planned} {turns : List Turn} {s : Status}

theorem planned_prefix (h : Course ctx stop p plan turns q s) :
    turns.map Turn.planned <+: plan := by
  -- the turns are taken from the front of the plan
  induction h with
  | finished => exact List.prefix_rfl
  | interrupted => exact List.nil_prefix
  | ended => exact ⟨_, rfl⟩
  | more _ _ _ _ ih => exact List.cons_prefix_cons.mpr ⟨rfl, ih⟩

theorem invocations_eq (h : Course ctx stop p plan turns q s) :
    q.invocations = p.invocations ++ turns.map (Turn.invocation ctx) := by
  induction h with
  | finished => exact (List.append_nil _).symm
  | interrupted => exact (List.append_nil _).symm
  | ended => rfl
  | more _ _ _ _ ih =>
    rw [ih, List.map_cons, List.append_cons]
    rfl

theorem drafts_eq (h : Course ctx stop p plan turns q s) :
    q.session.drafts = p.session.drafts ++ turns.flatMap (Turn.log ctx) := by
  -- every turn appends its own log to the session
  induction h with
  | finished => exact (List.append_nil _).symm
  | interrupted => exact (List.append_nil _).symm
  | ended => rw [Progress.drafts_add, List.flatMap_singleton]
  | more _ _ _ _ ih => rw [ih, Progress.drafts_add, List.flatMap_cons, List.append_assoc]

theorem events_prefix (h : Course ctx stop p plan turns q s) :
    p.session.events <+: q.session.events := by
  induction h with
  | finished => exact List.prefix_rfl
  | interrupted => exact List.prefix_rfl
  | ended => exact Session.events_prefix_appendAll _ _
  | more _ _ _ _ ih => exact (Session.events_prefix_appendAll _ _).trans ih

theorem closed (h : Course ctx stop p plan turns q s) :
    ∀ t ∈ turns, ∃ tick s r, (t.step ctx).close = .closed tick s r := by
  induction h with
  | finished => intro t ht; cases ht
  | interrupted => intro t ht; cases ht
  | ended _ hclose =>
    intro t ht
    rw [List.mem_singleton.mp ht]
    exact ⟨_, _, _, hclose⟩
  | more _ hclose _ _ ih =>
    intro t ht
    rcases List.mem_cons.mp ht with rfl | ht
    · exact ⟨_, _, _, hclose⟩
    · exact ih t ht

theorem turn_block (h : Course ctx stop p plan turns q s)
    (hagents : ∀ x ∈ plan, x.agent ≠ .crashing) {t : Turn} (ht : t ∈ turns) :
    Block (t.invocation ctx).author (t.invocation ctx).id (t.invocation ctx).status
      (t.response? ctx) (t.log ctx) := by
  obtain ⟨tick, s, r, hclose⟩ := h.closed t ht
  have hplan : t.planned ∈ plan := h.planned_prefix.subset (List.mem_map_of_mem ht)
  exact Turn.block (hagents _ hplan) hclose

theorem numbered (h : Course ctx stop p plan turns q s) (hp : p.session.Numbered) :
    q.session.Numbered := by
  induction h with
  | finished => exact hp
  | interrupted => exact hp
  | ended => exact hp.appendAll _
  | more _ _ _ _ ih => exact ih (hp.appendAll _)

theorem session_id (h : Course ctx stop p plan turns q s) : q.session.id = p.session.id := by
  induction h with
  | finished => rfl
  | interrupted => rfl
  | ended => exact Session.id_appendAll _ _
  | more _ _ _ _ ih => exact ih.trans (Session.id_appendAll _ _)

theorem place (h : Course ctx stop p plan turns q s) {k : Nat} {t : Turn}
    (ht : turns[k]? = some t) :
    t.pending.id = "inv-" ++ toString (p.invocations.length + k + 1) ∧
      t.before.session.id = p.session.id := by
  -- turns are counted on from the invocations that there were, and they share their session
  induction h generalizing k with
  | finished => cases ht
  | interrupted => cases ht
  | ended =>
    cases k with
    | zero =>
      rw [← Option.some.inj ht]
      exact ⟨rfl, rfl⟩
    | succ k => cases ht
  | @more p q next rest turns tick s r _ _ _ _ ih =>
    cases k with
    | zero =>
      rw [← Option.some.inj ht]
      exact ⟨rfl, rfl⟩
    | succ k =>
      obtain ⟨hid, hsession⟩ := ih ht
      have hlen : (p.add tick (Turn.step ctx ⟨p, next⟩)).invocations.length =
          p.invocations.length + 1 := by
        rw [Progress.add, List.length_append, List.length_singleton]
      rw [hid, hsession, hlen, Nat.add_right_comm p.invocations.length 1 k]
      exact ⟨rfl, Session.id_appendAll _ _⟩

theorem id_eq (h : Course ctx stop p plan turns q s) {k : Nat} {t : Turn}
    (ht : turns[k]? = some t) :
    (t.invocation ctx).id = "inv-" ++ toString (p.invocations.length + k + 1) := by
  obtain ⟨tick, s, r, hclose⟩ := h.closed t (List.mem_of_getElem? ht)
  rw [Turn.invocation_of_close hclose, Invocation.id_transition, Invocation.id_transition]
  exact (h.place ht).1

theorem sessionId_eq (h : Course ctx stop p plan turns q s) {t : Turn} (ht : t ∈ turns) :
    (t.invocation ctx).sessionId = q.session.id := by
  obtain ⟨k, hk, hkt⟩ := List.getElem_of_mem ht
  have hplace := (h.place (k := k) (by rw [List.getElem?_eq_getElem hk, hkt])).2
  obtain ⟨tick, s, r, hclose⟩ := h.closed t ht
  rw [Turn.invocation_of_close hclose, Invocation.sessionId_transition,
    Invocation.sessionId_transition, h.session_id]
  exact hplace

theorem outcome_eq (h : Course ctx stop p plan turns q s) (hnew : p.invocations = [])
    {o : Outcome} (ho : q.finish s = .finished o) :
    o.status = s ∧ o.sessions = [q.session] ∧
      o.invocations = turns.map (Turn.invocation ctx) := by
  cases ho
  refine ⟨rfl, rfl, ?_⟩
  show q.invocations = _
  rw [h.invocations_eq, hnew, List.nil_append]

/-- A run is over when its last turn is, and at once if it has none. -/
theorem over_with_last (h : Course ctx stop p plan turns q s) :
    turns.getLast?.elim (q.tick = p.tick) fun t =>
      (t.invocation ctx).finishedAt = some (.ofTick q.tick) := by
  induction h with
  | finished => rfl
  | interrupted => rfl
  | ended _ hclose => exact Turn.finishedAt_of_close hclose
  | @more p q next rest turns tick s r _ hclose _ _ ih =>
    cases turns with
    | nil =>
      -- nothing came after this turn, so no time has passed since
      have htick : q.tick = tick := ih
      rw [htick]
      exact Turn.finishedAt_of_close hclose
    | cons u turns => exact ih

theorem goesOn_dropLast (h : Course ctx stop p plan turns q s) :
    ∀ t ∈ turns.dropLast, t.GoesOn ctx stop := by
  -- a course goes on after a turn only through `more`
  induction h with
  | finished => intro t ht; cases ht
  | interrupted => intro t ht; cases ht
  | ended => intro t ht; cases ht
  | @more p q next rest turns tick s r _ hclose hgo _ ih =>
    cases turns with
    | nil => intro t ht; cases ht
    | cons u turns =>
      intro t ht
      rw [List.dropLast_cons_cons] at ht
      rcases List.mem_cons.mp ht with rfl | ht
      · exact ⟨Turn.status_of_close hclose, hgo⟩
      · exact ih t ht

end Course

/-! ## Steps that a plan gets to -/

/-- A plan that is carried out, from a progress on, up to a step: all the steps before succeed, none
of them asks to stop, and nothing has interrupted when its turn comes. -/
def GetsTo (ctx : Context) (stop : StopRule) (p : Progress) (plan : List Planned) (next : Planned)
    (q : Progress) : Prop :=
  ∃ before after turns, plan = before ++ next :: after ∧
    Course ctx stop p before turns q .succeeded ∧ turns.length = before.length ∧
      (∀ t ∈ turns, t.GoesOn ctx stop) ∧ ctx.signals.interruption? q.tick = none

namespace GetsTo

variable {p q : Progress} {plan : List Planned} {next : Planned}

theorem here {rest : List Planned} (hcalm : ctx.signals.interruption? p.tick = none) :
    GetsTo ctx stop p (next :: rest) next p :=
  ⟨[], rest, [], rfl, .finished p, rfl, List.forall_mem_nil _, hcalm⟩

theorem later {x : Planned} {rest : List Planned} {tick : Nat} {r : Option Response}
    (hcalm : ctx.signals.interruption? p.tick = none)
    (hclose : (Turn.step ctx ⟨p, x⟩).close = .closed tick .succeeded r)
    (hgo : Turn.asksToStop ctx stop ⟨p, x⟩ = false)
    (h : GetsTo ctx stop (p.add tick (Turn.step ctx ⟨p, x⟩)) rest next q) :
    GetsTo ctx stop p (x :: rest) next q := by
  obtain ⟨before, after, turns, rfl, hcourse, hlength, hturns, hthen⟩ := h
  have hgoesOn : Turn.GoesOn ctx stop ⟨p, x⟩ := ⟨Turn.status_of_close hclose, hgo⟩
  exact ⟨x :: before, after, ⟨p, x⟩ :: turns, rfl, .more hcalm hclose hgo hcourse,
    congrArg (· + 1) hlength, List.forall_mem_cons.mpr ⟨hgoesOn, hturns⟩, hthen⟩

theorem mem_plan (h : GetsTo ctx stop p plan next q) : next ∈ plan := by
  obtain ⟨before, after, _, rfl, -⟩ := h
  exact List.mem_append_right _ List.mem_cons_self

/-- What comes of the plan is what comes of the step and of what is planned after it. -/
theorem exists_runPlan_eq (h : GetsTo ctx stop p plan next q) :
    ∃ rest, runPlan ctx stop p plan = runPlan ctx stop q (next :: rest) := by
  obtain ⟨before, after, turns, rfl, hcourse, hlength, hturns, -⟩ := h
  refine ⟨after, ?_⟩
  induction before generalizing p turns with
  | nil =>
    cases hcourse
    rfl
  | cons x before ih =>
    cases hcourse with
    | interrupted => cases hlength
    | ended _ hclose hend =>
      -- a turn that goes on neither fails nor asks to stop
      obtain ⟨-, hgo⟩ := hturns _ List.mem_cons_self
      rcases hend with hfailed | ⟨-, hasks⟩
      · exact absurd rfl hfailed
      · rw [hgo] at hasks
        cases hasks
    | more hcalm hclose hgo hrest =>
      rw [List.cons_append, runPlan_of_goesOn hcalm hclose hgo]
      exact ih _ hrest (Nat.succ.inj hlength) (List.forall_mem_cons.mp hturns).2

end GetsTo

/-- A plan has a course, unless it gets to a step whose call crashes or never comes to an end. -/
theorem runPlan_cases (ctx : Context) (stop : StopRule) (p : Progress) (plan : List Planned) :
    (∃ turns q s, Course ctx stop p plan turns q s) ∨ ∃ next q, GetsTo ctx stop p plan next q ∧
      ((∃ tick, (Turn.step ctx ⟨q, next⟩).close = .crashed tick ∧
          runPlan ctx stop p plan = .aborted tick) ∨
        (Turn.step ctx ⟨q, next⟩).close = .never ∧ runPlan ctx stop p plan = .hang) := by
  -- induction on what is still planned, from any progress
  induction plan generalizing p with
  | nil => exact Or.inl ⟨[], p, .succeeded, .finished p⟩
  | cons x rest ih =>
    cases hinterrupt : ctx.signals.interruption? p.tick with
    | some s => exact Or.inl ⟨[], p, s, .interrupted hinterrupt⟩
    | none =>
      cases hclose : (Turn.step ctx ⟨p, x⟩).close with
      | crashed tick =>
        refine Or.inr ⟨x, p, .here hinterrupt, Or.inl ⟨tick, hclose, ?_⟩⟩
        rw [runPlan_cons, hinterrupt, hclose]
      | never =>
        refine Or.inr ⟨x, p, .here hinterrupt, Or.inr ⟨hclose, ?_⟩⟩
        rw [runPlan_cons, hinterrupt, hclose]
      | closed tick s r =>
        by_cases hend : s ≠ .succeeded ∨
            s = .succeeded ∧ Turn.asksToStop ctx stop ⟨p, x⟩ = true
        · exact Or.inl ⟨_, _, _, .ended hinterrupt hclose hend⟩
        · simp only [ne_eq, not_or, not_and, Decidable.not_not, Bool.not_eq_true] at hend
          obtain ⟨rfl, hgo⟩ := hend
          rw [runPlan_of_goesOn hinterrupt hclose (hgo rfl)]
          rcases ih (p.add tick (Turn.step ctx ⟨p, x⟩)) with
            ⟨turns, q, s, hcourse⟩ | ⟨next, q, hgets, hends⟩
          · exact Or.inl ⟨_, q, s, .more hinterrupt hclose (hgo rfl) hcourse⟩
          · exact Or.inr ⟨next, q, hgets.later hinterrupt hclose (hgo rfl), hends⟩

/-- Every run that comes to its end has a course. -/
theorem course_of_runPlan {p : Progress} {plan : List Planned} {o : Outcome}
    (h : runPlan ctx stop p plan = .finished o) :
    ∃ turns q s, Course ctx stop p plan turns q s ∧ q.finish s = .finished o := by
  rcases runPlan_cases ctx stop p plan with
    ⟨turns, q, s, hcourse⟩ | ⟨_, _, -, ⟨_, -, haborted⟩ | ⟨-, hhang⟩⟩
  · exact ⟨turns, q, s, hcourse, hcourse.runPlan_eq.symm.trans h⟩
  · cases h.symm.trans haborted
  · cases h.symm.trans hhang

/-- A run whose agents do not crash ends, unless it gets to one that hangs and nothing can interrupt
it. -/
theorem runPlan_ends (ctx : Context) (stop : StopRule) {plan : List Planned}
    (hagents : ∀ x ∈ plan, x.agent ≠ .crashing) (p : Progress) :
    (∃ o, runPlan ctx stop p plan = .finished o) ∨
      runPlan ctx stop p plan = .hang ∧ ctx.signals = {} ∧
        ∃ next q, GetsTo ctx stop p plan next q ∧ next.agent.hangs = true := by
  rcases runPlan_cases ctx stop p plan with
    ⟨turns, q, s, hcourse⟩ | ⟨next, q, hgets, ⟨tick, hclose, -⟩ | ⟨hclose, hhang⟩⟩
  · exact Or.inl ⟨_, hcourse.runPlan_eq⟩
  · exact absurd hclose (Call.close_trace_ne_crashed (hagents _ hgets.mem_plan))
  · obtain ⟨hhangs, hsignals⟩ := Call.close_trace_eq_never_iff.mp hclose
    exact Or.inr ⟨hhang, hsignals, next, q, hgets, hhangs⟩

/-! ## The status of a run and its turns -/

/-- What the turns of a run say about its status, when so many were planned and it was over at a
tick. -/
inductive Verdict (ctx : Context) (stop : StopRule) (planned : Nat) (turns : List Turn)
    (tick : Nat) : Status → Prop
  | failed {t : Turn} (hlast : turns.getLast? = some t)
      (hfailed : (t.invocation ctx).status ≠ .succeeded) :
      Verdict ctx stop planned turns tick (t.invocation ctx).status
  | stopped {t : Turn} (hlast : turns.getLast? = some t)
      (hsucceeded : (t.invocation ctx).status = .succeeded)
      (hstop : t.asksToStop ctx stop = true) : Verdict ctx stop planned turns tick .succeeded
  | exhausted (hgo : ∀ t ∈ turns, t.GoesOn ctx stop) (hall : turns.length = planned) :
      Verdict ctx stop planned turns tick .succeeded
  | interrupted {s : Status} (hgo : ∀ t ∈ turns, t.GoesOn ctx stop)
      (hsome : turns.length < planned) (hinterrupt : ctx.signals.interruption? tick = some s) :
      Verdict ctx stop planned turns tick s

theorem Verdict.cons {planned tick : Nat} {turns : List Turn} {s : Status} {t : Turn}
    (h : Verdict ctx stop planned turns tick s) (ht : t.GoesOn ctx stop) :
    Verdict ctx stop (planned + 1) (t :: turns) tick s := by
  -- the last turn stays the last one, and one more was planned
  have hlast {u : Turn} (hu : turns.getLast? = some u) : (t :: turns).getLast? = some u := by
    rw [List.getLast?_cons, hu]
    rfl
  cases h with
  | failed hu hfailed => exact .failed (hlast hu) hfailed
  | stopped hu hsucceeded hstop => exact .stopped (hlast hu) hsucceeded hstop
  | exhausted hgo hall =>
    exact .exhausted (List.forall_mem_cons.mpr ⟨ht, hgo⟩) (congrArg (· + 1) hall)
  | interrupted hgo hsome hinterrupt =>
    exact .interrupted (List.forall_mem_cons.mpr ⟨ht, hgo⟩) (Nat.succ_lt_succ hsome) hinterrupt

theorem Course.verdict {p q : Progress} {plan : List Planned} {turns : List Turn} {s : Status}
    (h : Course ctx stop p plan turns q s) : Verdict ctx stop plan.length turns q.tick s := by
  -- along the course, from its end: whatever the turns after say stays said
  induction h with
  | finished => exact .exhausted (fun t ht => by cases ht) rfl
  | interrupted hinterrupt =>
    exact .interrupted (fun t ht => by cases ht) (Nat.succ_pos _) hinterrupt
  | ended _ hclose hend =>
    have hstatus := Turn.status_of_close hclose
    rcases hend with hs | ⟨hs, hstop⟩
    · rw [← hstatus] at hs ⊢
      exact .failed rfl hs
    · subst hs
      exact .stopped rfl hstatus hstop
  | more _ hclose hgo _ ih => exact ih.cons ⟨Turn.status_of_close hclose, hgo⟩

namespace Verdict

variable {planned tick : Nat} {turns : List Turn} {s : Status}

theorem succeeded_iff (h : Verdict ctx stop planned turns tick s) (hpos : 0 < planned) :
    s = .succeeded ↔
      ∃ t, turns.getLast? = some t ∧ (t.invocation ctx).status = .succeeded ∧
        (turns.length = planned ∨ t.asksToStop ctx stop = true) := by
  constructor
  · intro hs
    cases h with
    | failed _ hfailed => exact absurd hs hfailed
    | stopped ht hsucceeded hstop => exact ⟨_, ht, hsucceeded, Or.inr hstop⟩
    | exhausted hgo hall =>
      -- something was planned, so there is a last turn
      have hne : turns ≠ [] := List.ne_nil_of_length_pos (by omega)
      exact ⟨_, List.getLast?_eq_some_getLast hne, (hgo _ (List.getLast_mem hne)).1, Or.inl hall⟩
    | interrupted _ _ hinterrupt =>
      obtain rfl | rfl := Signals.interruption?_cases hinterrupt <;> cases hs
  · rintro ⟨t, ht, hsucceeded, hend⟩
    cases h with
    | failed hu hfailed =>
      cases ht.symm.trans hu
      exact absurd hsucceeded hfailed
    | stopped => rfl
    | exhausted => rfl
    | interrupted hgo hsome =>
      -- neither is the plan carried out nor does the last turn ask to stop
      rcases hend with hall | hstop
      · omega
      · rw [(hgo t (List.mem_of_getLast? ht)).2] at hstop
        cases hstop

theorem unsuccessful (h : Verdict ctx stop planned turns tick s) {t : Turn}
    (ht : turns.getLast? = some t) (hfailed : (t.invocation ctx).status ≠ .succeeded) :
    s = (t.invocation ctx).status := by
  cases h with
  | failed hu =>
    cases ht.symm.trans hu
    rfl
  | stopped hu hsucceeded =>
    cases ht.symm.trans hu
    exact absurd hsucceeded hfailed
  | exhausted hgo => exact absurd (hgo t (List.mem_of_getLast? ht)).1 hfailed
  | interrupted hgo => exact absurd (hgo t (List.mem_of_getLast? ht)).1 hfailed

/-- A run that is over too early, though nothing has failed, is interrupted just then. -/
theorem cut_short (h : Verdict ctx stop planned turns tick s)
    (hall : ∀ t, turns.getLast? = some t → (t.invocation ctx).status = .succeeded)
    (hs : s ≠ .succeeded) : ctx.signals.interruption? tick = some s := by
  cases h with
  | failed hu hfailed => exact absurd (hall _ hu) hfailed
  | stopped => exact absurd rfl hs
  | exhausted => exact absurd rfl hs
  | interrupted _ _ hinterrupt => exact hinterrupt

end Verdict

end Ensemble.Run
