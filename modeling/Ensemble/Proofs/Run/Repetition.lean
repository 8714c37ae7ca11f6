import Ensemble.Proofs.Run.ControlFlow
import Ensemble.Proofs.Run.Shared

/-!
A loop is a repeated sequence that is cut at the first stop.  Turn by turn it does what a run does
that goes over its sub-agents once, when they are listed as often as the loop has passes; only the
passes are not numbered there, and nobody listens to who asks to stop.
-/

namespace Ensemble

/-! ## Sessions that are cut -/

namespace Session

/-- A session up to the event that closes an invocation. -/
def cutAfter (s : Session) (id : String) : Session :=
  { s with events := s.events.take (s.events.findIdx (fun e => e.draft.closes id) + 1) }

/-- What is left of a session is what it was when the invocation was closed. -/
theorem cutAfter_eq {s whole : Session} {id : String} {ds : List EventDraft} {d : EventDraft}
    (hid : whole.id = s.id) (hbegins : s.events <+: whole.events) (hdrafts : s.drafts = ds ++ [d])
    (hopen : ∀ x ∈ ds, x.closes id = false) (hcloses : d.closes id = true) :
    whole.cutAfter id = s := by
  obtain ⟨rest, hrest⟩ := hbegins
  have hlength : s.events.length = ds.length + 1 := by
    have hlength := congrArg List.length hdrafts
    rw [drafts, List.length_map, List.length_append, List.length_singleton] at hlength
    exact hlength
  have hindex : whole.events.findIdx (fun e => e.draft.closes id) = ds.length := by
    have hmap : whole.events.map Event.draft = ds ++ d :: rest.map Event.draft := by
      have hdrafts : s.events.map Event.draft = ds ++ [d] := hdrafts
      rw [← hrest, List.map_append, hdrafts, List.append_assoc, List.singleton_append]
    have hnone : ¬ ds.findIdx (EventDraft.closes id) < ds.length := by
      rw [List.findIdx_lt_length]
      rintro ⟨x, hx, hxcloses⟩
      rw [hopen x hx] at hxcloses
      cases hxcloses
    have hdraft : whole.events.findIdx (fun e => e.draft.closes id) =
        (whole.events.map Event.draft).findIdx (EventDraft.closes id) := by
      rw [List.findIdx_map]
      rfl
    rw [hdraft, hmap, List.findIdx_append, if_neg hnone, List.findIdx_cons, hcloses]
    exact Nat.zero_add _
  rw [cutAfter, hindex, ← hrest, List.take_left' hlength, hid]

end Session

/-! ## Without the numbers of the passes -/

namespace Invocation

/-- An invocation without the number of its pass. -/
def unlabelled (v : Invocation) : Invocation :=
  { v with iteration := none }

theorem unlabelled_transition (v : Invocation) (now : Nat) (s : Status) :
    (v.transition now s).unlabelled = v.unlabelled.transition now s := by
  have hstatus : v.unlabelled.status = v.status := rfl
  unfold transition
  rw [hstatus]
  cases v.status.isTerminal <;> rfl

end Invocation

theorem Step.take_unlabelled (ctx : Run.Context) (agent : Agent) (i : Invocation) (s : Session)
    (now : Nat) : take ctx agent i.unlabelled s now =
      { take ctx agent i s now with invocation := (take ctx agent i s now).invocation.unlabelled } := by
  have hsettle (close : Close) : settle (i.unlabelled.transition now .running) close =
      (settle (i.transition now .running) close).unlabelled := by
    cases close <;> simp only [settle, Invocation.unlabelled_transition]
  simp only [take, ← hsettle]
  rfl

namespace Run

def Progress.unlabelled (p : Progress) : Progress :=
  { p with invocations := p.invocations.map Invocation.unlabelled }

def Planned.unlabelled (x : Planned) : Planned :=
  { x with iteration := none }

def Turn.unlabelled (t : Turn) : Turn :=
  ⟨t.before.unlabelled, t.planned.unlabelled⟩

def Outcome.unlabelled (o : Outcome) : Outcome :=
  { o with invocations := o.invocations.map Invocation.unlabelled }

theorem Progress.unlabelled_add (p : Progress) (tick : Nat) (s : Step) :
    (p.add tick s).unlabelled =
      p.unlabelled.add tick { s with invocation := s.invocation.unlabelled } := by
  simp only [unlabelled, add, List.map_append, List.map_singleton]
  rfl

section Turn

variable (ctx : Context) (t : Turn)

theorem Turn.step_unlabelled : t.unlabelled.step ctx =
    { t.step ctx with invocation := (t.invocation ctx).unlabelled } := by
  have hpending : t.unlabelled.pending = t.pending.unlabelled := by
    simp only [pending, Progress.nextInvocation, unlabelled, Progress.unlabelled, List.length_map]
    rfl
  rw [step, hpending]
  exact Step.take_unlabelled ctx t.planned.agent t.pending t.before.session t.before.tick

theorem Turn.close_unlabelled : (t.unlabelled.step ctx).close = (t.step ctx).close := by
  rw [step_unlabelled]

theorem Turn.invocation_unlabelled :
    t.unlabelled.invocation ctx = (t.invocation ctx).unlabelled := by
  rw [invocation, step_unlabelled]

theorem Turn.add_unlabelled (tick : Nat) :
    (t.before.add tick (t.step ctx)).unlabelled =
      t.unlabelled.before.add tick (t.unlabelled.step ctx) := by
  rw [Progress.unlabelled_add, step_unlabelled]
  rfl

end Turn

/-! ## Courses of a sequence and of a loop -/

variable {ctx : Context} {stop : StopRule}

/-- Whether the invocation of a turn succeeds with a response that asks to stop, be it listened to
or not. -/
def Turn.signalsStop (ctx : Context) (stop : StopRule) (t : Turn) : Bool :=
  (t.invocation ctx).status = .succeeded && (t.response? ctx).any stop.stops

theorem Turn.signalsStop_unlabelled (t : Turn) :
    t.unlabelled.signalsStop ctx stop = t.signalsStop ctx stop := by
  rw [signalsStop, invocation_unlabelled, response?, close_unlabelled]
  rfl

/-- The turns of a loop and where they lead, next to those of a sequence: they are the same, but for
the numbers of the passes, up to the first one that signals to stop. -/
inductive FollowsUntilStop (ctx : Context) (stop : StopRule) (turns turns' : List Turn)
    (q q' : Progress) (s s' : Status) : Prop
  | whole (hturns : turns' = turns.map Turn.unlabelled) (hq : q' = q.unlabelled) (hs : s' = s)
      (hnone : ∀ t ∈ turns, t.signalsStop ctx stop = false)
  | cut (before : List Turn) (t : Turn) (after : List Turn) (hturns : turns = before ++ [t])
      (hturns' : turns' = turns.map Turn.unlabelled ++ after)
      (hbefore : ∀ u ∈ before, u.signalsStop ctx stop = false)
      (hstop : t.signalsStop ctx stop = true) (hlog : q.session.events <+: q'.session.events)
      (hs : s = .succeeded)

theorem FollowsUntilStop.cons {turns turns' : List Turn} {q q' : Progress} {s s' : Status} {t : Turn}
    (h : FollowsUntilStop ctx stop turns turns' q q' s s') (ht : t.signalsStop ctx stop = false) :
    FollowsUntilStop ctx stop (t :: turns) (t.unlabelled :: turns') q q' s s' := by
  cases h with
  | whole hturns hq hs hnone =>
    exact .whole (by rw [hturns, List.map_cons]) hq hs (List.forall_mem_cons.mpr ⟨ht, hnone⟩)
  | cut before u after hturns hturns' hbefore hstop hlog hs =>
    exact .cut (t :: before) u after (by rw [hturns, List.cons_append])
      (by rw [hturns', List.map_cons, List.cons_append])
      (List.forall_mem_cons.mpr ⟨ht, hbefore⟩) hstop hlog hs

/-- To every course of a sequence belongs one of the loop. -/
theorem Course.exists_loop {p p' q' : Progress} {steps steps' : List Planned} {turns' : List Turn}
    {s' : Status} (h : Course ctx stop p' steps' turns' q' s') (hp : p' = p.unlabelled)
    (hsteps : steps.map Planned.unlabelled = steps') (hloop : ∀ x ∈ steps, x.iteration.isSome) :
    ∃ turns q s, Course ctx stop p steps turns q s ∧
      FollowsUntilStop ctx stop turns turns' q q' s s' := by
  -- along the course of the sequence; the loop leaves it at the first turn that signals to stop
  induction h generalizing p steps with
  | finished p' =>
    cases List.map_eq_nil_iff.mp hsteps
    exact ⟨[], p, .succeeded, .finished p, .whole rfl hp rfl (List.forall_mem_nil _)⟩
  | @interrupted _ _ _ s hinterrupt =>
    obtain ⟨x, rest, rfl, rfl, rfl⟩ := List.map_eq_cons_iff.mp hsteps
    subst hp
    exact ⟨[], p, s, .interrupted hinterrupt, .whole rfl rfl rfl (List.forall_mem_nil _)⟩
  | @ended _ _ _ tick s r hcalm hclose hend =>
    obtain ⟨x, rest, rfl, rfl, rfl⟩ := List.map_eq_cons_iff.mp hsteps
    subst hp
    -- the sequence has not ended here because of a signal, so the step has failed
    have hfailed : s ≠ .succeeded := hend.resolve_right (by rintro ⟨-, hasks⟩; cases hasks)
    have hclose' : (Turn.step ctx ⟨p, x⟩).close = .closed tick s r :=
      (Turn.close_unlabelled ctx ⟨p, x⟩).symm.trans hclose
    have hquiet : Turn.signalsStop ctx stop ⟨p, x⟩ = false := by
      rw [Turn.signalsStop, Turn.status_of_close hclose', decide_eq_false hfailed, Bool.false_and]
    exact ⟨_, _, s, .ended hcalm hclose' (Or.inl hfailed),
      .whole rfl (Turn.add_unlabelled ctx ⟨p, x⟩ tick).symm rfl
        (List.forall_mem_singleton.mpr hquiet)⟩
  | @more _ q' _ _ turns' tick s r hcalm hclose hgo hrest ih =>
    obtain ⟨x, rest, rfl, rfl, rfl⟩ := List.map_eq_cons_iff.mp hsteps
    subst hp
    rw [List.forall_mem_cons] at hloop
    have hclose' : (Turn.step ctx ⟨p, x⟩).close = .closed tick .succeeded r :=
      (Turn.close_unlabelled ctx ⟨p, x⟩).symm.trans hclose
    have hasks : Turn.asksToStop ctx stop ⟨p, x⟩ = Turn.signalsStop ctx stop ⟨p, x⟩ := by
      rw [Turn.asksToStop, hloop.1, Turn.signalsStop, Turn.status_of_close hclose']
      rfl
    have hadd := Turn.add_unlabelled ctx ⟨p, x⟩ tick
    cases hstop : Turn.signalsStop ctx stop ⟨p, x⟩ with
    | false =>
      obtain ⟨turns, q, s, hcourse, hfollows⟩ := ih hadd.symm rfl hloop.2
      exact ⟨_, q, s, .more hcalm hclose' (hasks.trans hstop) hcourse, hfollows.cons hstop⟩
    | true =>
      refine ⟨_, _, .succeeded, .ended hcalm hclose' (Or.inr ⟨rfl, hasks.trans hstop⟩), ?_⟩
      have hlog : (p.unlabelled.add tick (Turn.step ctx (Turn.unlabelled ⟨p, x⟩))).session.events <+:
          q'.session.events := hrest.events_prefix
      rw [Turn.step_unlabelled] at hlog
      exact .cut [] _ turns' rfl rfl (List.forall_mem_nil _) hstop hlog rfl

/-- The first steps of a plan are carried out as they are when more steps follow. -/
theorem Course.of_append {p q : Progress} {steps more : List Planned} {turns : List Turn}
    {s : Status} (h : Course ctx stop p (steps ++ more) turns q s) :
    ∃ turns' q' s', Course ctx stop p steps turns' q' s' ∧ q'.invocations <+: q.invocations ∧
      q'.session.events <+: q.session.events := by
  induction steps generalizing p turns with
  | nil =>
    refine ⟨[], p, .succeeded, .finished p, ?_, h.events_prefix⟩
    rw [h.invocations_eq]
    exact List.prefix_append _ _
  | cons x steps ih =>
    cases h with
    | interrupted hinterrupt =>
      exact ⟨[], _, s, .interrupted hinterrupt, List.prefix_rfl, List.prefix_rfl⟩
    | ended hcalm hclose hend =>
      exact ⟨_, _, s, .ended hcalm hclose hend, List.prefix_rfl, List.prefix_rfl⟩
    | more hcalm hclose hgo hrest =>
      obtain ⟨turns', q', s', hcourse, hfirst⟩ := ih hrest
      exact ⟨_, q', s', .more hcalm hclose hgo hcourse, hfirst⟩

/-! ## References and plans that are repeated -/

section Repeat

variable {registry : Registry} {references : List AgentReference}
  {agents : List (AgentReference × Agent)}

theorem resolveAll_append (more : List AgentReference) :
    resolveAll registry (references ++ more) =
      (resolveAll registry references).bind fun agents =>
        (resolveAll registry more).map fun rest => agents ++ rest := by
  induction references with
  | nil =>
    rw [List.nil_append, resolveAll]
    cases resolveAll registry more <;> rfl
  | cons r references ih =>
    rw [List.cons_append, resolveAll, resolveAll, ih]
    cases registry.resolve r with
    | error e => rfl
    | ok a =>
      cases resolveAll registry references with
      | error e => rfl
      | ok agents => cases resolveAll registry more <;> rfl

theorem resolveAll_replicate (h : resolveAll registry references = .ok agents) (m : Nat) :
    resolveAll registry (List.replicate m references).flatten =
      .ok (List.replicate m agents).flatten := by
  induction m with
  | zero => rfl
  | succ m ih =>
    rw [List.replicate_succ, List.flatten_cons, resolveAll_append, h, ih]
    rfl

theorem resolveAll_replicate_error {fault : AgentReference × Registry.NotFound}
    (h : resolveAll registry references = .error fault) {m : Nat} (hm : 1 ≤ m) :
    resolveAll registry (List.replicate m references).flatten = .error fault := by
  obtain ⟨k, rfl⟩ := Nat.exists_eq_add_of_le' hm
  rw [List.replicate_succ, List.flatten_cons, resolveAll_append, h]
  rfl

theorem map_unlabelled_plan (m : Nat) :
    (plan (some m) agents).map Planned.unlabelled =
      plan none (List.replicate m agents).flatten := by
  have hpass (k : Nat) : (pass (some k) agents).map Planned.unlabelled = pass none agents := by
    rw [pass, pass, List.map_map]
    rfl
  induction m with
  | zero => rfl
  | succ m ih =>
    rw [plan_succ, List.map_append, ih, hpass, List.replicate_succ', List.flatten_append,
      List.flatten_singleton, plan, plan, pass, pass, pass, List.map_append]

theorem iteration_of_mem_plan {m : Nat} {x : Planned} (h : x ∈ plan (some m) agents) :
    x.iteration.isSome = true := by
  obtain ⟨k, -, hk⟩ := List.mem_flatMap.mp h
  obtain ⟨a, -, rfl⟩ := List.mem_map.mp hk
  rfl

theorem plan_prefix (agents : List (AgentReference × Agent)) {k m : Nat} (hle : k ≤ m) :
    plan (some k) agents <+: plan (some m) agents := by
  obtain ⟨j, rfl⟩ := Nat.exists_eq_add_of_le hle
  clear hle
  induction j with
  | zero => exact List.prefix_rfl
  | succ j ih =>
    rw [← Nat.add_assoc, plan_succ]
    exact ih.trans (List.prefix_append _ _)

end Repeat

/-! ## Records of a sequence and of a loop -/

namespace Outcome

/-- Whether an invocation succeeded with a response that asks to stop, as its session tells. -/
def signalsStop (o : Outcome) (stop : StopRule) (v : Invocation) : Bool :=
  v.status = .succeeded && o.asksToStop stop v

/-- The record of a loop next to that of a sequence.  They are the same, but for the numbers of the
passes, if nobody in the sequence signals to stop; and else the loop has succeeded with what there
is in the sequence until the first one who does so is done. -/
inductive RepeatsUntilStop (stop : StopRule) (loop sequence : Outcome) : Prop
  | whole (hnone : ∀ v ∈ sequence.invocations, sequence.signalsStop stop v = false)
      (hsame : loop.unlabelled = sequence)
  | cut (before : List Invocation) (v : Invocation) (after : List Invocation)
      (hsplit : sequence.invocations = before ++ v :: after)
      (hbefore : ∀ u ∈ before, sequence.signalsStop stop u = false)
      (hstop : sequence.signalsStop stop v = true)
      (hinvocations : loop.invocations.map Invocation.unlabelled = before ++ [v])
      (hsessions : loop.sessions = sequence.sessions.map fun s => s.cutAfter v.id)
      (hstatus : loop.status = .succeeded)

/-- What one record holds is the beginning of what the other one holds. -/
structure ExtendedBy (o longer : Outcome) : Prop where
  invocations : o.invocations <+: longer.invocations
  sessions : List.Forall₂ (fun s t => s.id = t.id ∧ s.events <+: t.events) o.sessions
    longer.sessions

end Outcome

variable {registry : Registry} {references : List AgentReference}

section Course

variable {p q q' : Progress} {steps steps' : List Planned} {turns turns' : List Turn}
  {s s' : Status} {o : Outcome}

theorem Course.signalsStop_eq (h : Course ctx stop p steps turns q s)
    (hlive : ∀ x ∈ steps, x.agent ≠ .crashing) (hnew : p.session.drafts = [])
    (hsessions : o.sessions = [q.session]) {t : Turn} (ht : t ∈ turns) :
    o.signalsStop stop (t.invocation ctx) = t.signalsStop ctx stop := by
  rw [Outcome.signalsStop, Outcome.asksToStop, h.responseTo?_eq hlive hnew hsessions ht,
    Turn.signalsStop]

/-- The records of two courses that go together. -/
theorem Course.repeatsUntilStop {loop : Outcome} (h : Course ctx stop .start steps turns q s)
    (h' : Course ctx stop .start steps' turns' q' s')
    (hfollows : FollowsUntilStop ctx stop turns turns' q q' s s')
    (hlive : ∀ x ∈ steps, x.agent ≠ .crashing) (hlive' : ∀ x ∈ steps', x.agent ≠ .crashing)
    (hloop : q.finish s = .finished loop) (ho : q'.finish s' = .finished o) :
    loop.RepeatsUntilStop stop o := by
  obtain ⟨hstatus, hsessions, hinvocations⟩ := h.outcome_eq rfl hloop
  obtain ⟨-, hsessions', hinvocations'⟩ := h'.outcome_eq rfl ho
  have hsignals {t : Turn} (ht : t.unlabelled ∈ turns') :
      o.signalsStop stop (t.invocation ctx).unlabelled = t.signalsStop ctx stop := by
    rw [← Turn.invocation_unlabelled, h'.signalsStop_eq hlive' rfl hsessions' ht,
      Turn.signalsStop_unlabelled]
  have hmap (turns : List Turn) : (turns.map Turn.unlabelled).map (Turn.invocation ctx) =
      (turns.map (Turn.invocation ctx)).map Invocation.unlabelled := by
    simp only [List.map_map, Function.comp_def, Turn.invocation_unlabelled]
  cases hfollows with
  | whole hturns hq hs hnone =>
    subst hturns hq hs
    refine .whole ?_ ?_
    · intro v hv
      rw [hinvocations', hmap, List.map_map] at hv
      obtain ⟨t, ht, rfl⟩ := List.mem_map.mp hv
      exact (hsignals (List.mem_map_of_mem ht)).trans (hnone t ht)
    · cases hloop
      cases ho
      rfl
  | cut before t after hturns hturns' hbefore hstop hlog hs =>
    subst hturns
    have hmem {u : Turn} (hu : u ∈ before ++ [t]) : u.unlabelled ∈ turns' := by
      rw [hturns']
      exact List.mem_append_left _ (List.mem_map_of_mem hu)
    have hlast : t ∈ before ++ [t] := List.mem_append_right _ List.mem_cons_self
    refine .cut ((before.map (Turn.invocation ctx)).map Invocation.unlabelled)
      (t.invocation ctx).unlabelled (after.map (Turn.invocation ctx)) ?_ ?_ ?_ ?_ ?_
      (hstatus.trans hs)
    · rw [hinvocations', hturns', List.map_append, hmap, List.map_append, List.map_append,
        List.append_assoc]
      rfl
    · intro v hv
      rw [List.map_map] at hv
      obtain ⟨u, hu, rfl⟩ := List.mem_map.mp hv
      exact (hsignals (hmem (List.mem_append_left _ hu))).trans (hbefore u hu)
    · exact (hsignals (hmem hlast)).trans hstop
    · rw [hinvocations, List.map_append, List.map_append]
      rfl
    · -- the loop is over with the event that closes the last of its invocations
      obtain ⟨ds, d, e, hdrafts, -, hcloses, hopen⟩ := h.exists_drafts_eq rfl hlive rfl
      rw [List.flatMap_nil, List.append_cons] at hdrafts
      have hid : q'.session.id = q.session.id := h'.session_id.trans h.session_id.symm
      have hcut := Session.cutAfter_eq hid hlog hdrafts hopen hcloses
      rw [hsessions, hsessions', List.map_singleton]
      exact congrArg (fun s => [s]) hcut.symm

end Course

theorem Outcome.extendedBy_rfl (o : Outcome) : o.ExtendedBy o where
  invocations := List.prefix_rfl
  sessions := List.forall₂_same.mpr fun _ _ => ⟨rfl, List.prefix_rfl⟩

/-- A loop with fewer passes is over, and has done the first part of what the one with more has. -/
theorem shared_extendedBy {k m : Nat} (hle : k ≤ m) {longer : Outcome}
    (h : shared ctx registry stop (some m) references = .finished longer) :
    ∃ o, shared ctx registry stop (some k) references = .finished o ∧ o.ExtendedBy longer := by
  rcases shared_cases h with ⟨r, e, hresolve, rfl⟩ |
    ⟨agents, turns, q, s, hresolve, hcourse, hfinish⟩
  · exact ⟨_, shared_of_unresolved hresolve, Outcome.extendedBy_rfl _⟩
  · obtain ⟨more, hmore⟩ := plan_prefix agents hle
    rw [← hmore] at hcourse
    obtain ⟨turns', q', s', hcourse', hinvocations, hlog⟩ := hcourse.of_append
    refine ⟨_, (shared_of_resolved hresolve).trans hcourse'.runPlan_eq, ?_⟩
    cases hfinish
    have hid : q'.session.id = q.session.id := hcourse'.session_id.trans hcourse.session_id.symm
    exact ⟨hinvocations, .cons ⟨hid, hlog⟩ .nil⟩

/-- A loop does what the repeated sequence does, up to the first signal to stop, whatever interrupts
both; and to allow more passes only makes what it does longer. -/
theorem shared_loop (ctx : Context) {registry : Registry} (stop : StopRule)
    {references : List AgentReference} {m : Nat} (hm : 1 ≤ m)
    (hlive : ∀ r ∈ references, registry.resolve r ≠ .ok .crashing) :
    (∀ sequence, shared ctx registry stop none (List.replicate m references).flatten =
        .finished sequence →
      ∃ loop, shared ctx registry stop (some m) references = .finished loop ∧
        loop.RepeatsUntilStop stop sequence) ∧
      ∀ loop, shared ctx registry stop (some m) references = .finished loop → ∀ k ≤ m,
        ∃ shorter, shared ctx registry stop (some k) references = .finished shorter ∧
          shorter.ExtendedBy loop := by
  refine ⟨fun sequence hsequence => ?_, fun loop hloop k hk => shared_extendedBy hk hloop⟩
  cases hresolve : resolveAll registry references with
  | error fault =>
    -- neither of them begins, since the same reference names no agent
    rw [shared_of_unresolved (resolveAll_replicate_error hresolve hm), Ending.finished.injEq]
      at hsequence
    subst hsequence
    exact ⟨_, shared_of_unresolved hresolve, .whole (List.forall_mem_nil _) rfl⟩
  | ok agents =>
    have hrepeated := resolveAll_replicate hresolve m
    rw [shared_of_resolved hrepeated] at hsequence
    obtain ⟨turns', q', s', hcourse', hfinish'⟩ := course_of_runPlan hsequence
    obtain ⟨turns, q, s, hcourse, hfollows⟩ := hcourse'.exists_loop (p := .start) rfl
      (map_unlabelled_plan m) fun x hx => iteration_of_mem_plan hx
    refine ⟨_, (shared_of_resolved hresolve).trans hcourse.runPlan_eq, ?_⟩
    refine hcourse.repeatsUntilStop hcourse' hfollows (live_plan agents hresolve hlive _) ?_ rfl
      hfinish'
    refine live_plan _ hrepeated (fun r hr => ?_) none
    obtain ⟨rs, hrs, hr⟩ := List.mem_flatten.mp hr
    rw [List.eq_of_mem_replicate hrs] at hr
    exact hlive r hr

/-- Three passes of two sub-agents, the second of which asks to stop: the loop makes two of the six
invocations of the sequence. -/
theorem shared_loop_exit :
    let references : List AgentReference := [{ name := "a" }, { name := "b" }]
    let exit : Replay := { script := [{ toolCalls := [{ index := 0, name := some "exit_loop" }] }] }
    let registry : Registry := { agents := [("a", .replay (.ofText "hi")), ("b", .replay exit)] }
    let ctx : Context := { task := "t", signals := { deadline := some 1000000000 } }
    1 ≤ 3 ∧ (∀ r ∈ references, registry.resolve r ≠ .ok .crashing) ∧ ∃ sequence loop,
      shared ctx registry .default none (List.replicate 3 references).flatten =
          .finished sequence ∧
        shared ctx registry .default (some 3) references = .finished loop ∧
          loop.RepeatsUntilStop .default sequence ∧ sequence.invocations.length = 6 ∧
            loop.invocations.length = 2 := by
  intro references exit registry ctx
  have hlive : ∀ r ∈ references, registry.resolve r ≠ .ok .crashing := by decide +kernel
  have hrepeated : ∀ r ∈ (List.replicate 3 references).flatten,
      registry.resolve r ≠ .ok .crashing := by decide +kernel
  have hsignals : ctx.signals ≠ {} := nofun
  obtain ⟨sequence, hsequence⟩ := shared_finishes .default none hrepeated hsignals
  obtain ⟨loop, hloop, hrepeats⟩ :=
    (shared_loop ctx .default (m := 3) (by decide) hlive).1 sequence hsequence
  have hsix : (shared ctx registry .default none
      (List.replicate 3 references).flatten).outcome?.map (·.invocations.length) = some 6 := by
    decide +kernel
  have htwo : (shared ctx registry .default (some 3) references).outcome?.map
      (·.invocations.length) = some 2 := by
    decide +kernel
  rw [hsequence] at hsix
  rw [hloop] at htwo
  exact ⟨by decide, hlive, sequence, loop, hsequence, hloop, hrepeats, Option.some.inj hsix,
    Option.some.inj htwo⟩

end Run

end Ensemble
