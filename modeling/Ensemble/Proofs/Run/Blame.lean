import Ensemble.Proofs.Run.Gathering

/-!
What a run side by side blames when it was cut short.  The deadline is to blame when it stopped a
call or a wait for a slot, and the cancellation is when all that was stopped was stopped by it.  A
run gets this right unless both come at one tick: then it is the cancellation that stops the
branches, and the run is said to have timed out.
-/

namespace Ensemble

theorem Timestamp.ofTick_inj {tick tick' : Nat} (h : ofTick tick = ofTick tick') :
    tick = tick' := by
  simp only [ofTick, mk.injEq] at h
  omega

theorem Pool.acquire_eq_refused_iff {p : Pool} {who : Nat} {interrupt : Option Interrupt}
    {why : Refusal} :
    p.acquire who interrupt = (p, .refused why) ↔ interrupt.map .ofInterrupt = some why := by
  unfold acquire
  cases interrupt with
  | some i => simp
  | none => cases p.free <;> simp

theorem Pool.Refusal.ofInterrupt_inj {i j : Interrupt} (h : ofInterrupt i = ofInterrupt j) :
    i = j := by
  cases i <;> cases j <;> first | rfl | cases h

/-! ## What the record of an invocation tells -/

namespace Invocation

/-- An invocation that gave up its wait for a slot: it ended without having begun, at a tick at
which any pool refuses for that reason. -/
def RefusedFor (signals : Signals) (why : Pool.Refusal) (v : Invocation) : Prop :=
  v.status = .cancelled ∧ v.startedAt = none ∧ ∃ tick, v.finishedAt = some (.ofTick tick) ∧
    ∀ (p : Pool) (who : Nat), p.acquire who (signals.interrupt? tick) = (p, .refused why)

def CutByDeadline (signals : Signals) (v : Invocation) : Prop :=
  v.status = .timedOut ∨ v.RefusedFor signals .deadlineExceeded

def StoppedByToken (signals : Signals) (v : Invocation) : Prop :=
  v.status = .cancelled ∧ (v.startedAt ≠ none ∨ v.RefusedFor signals .cancelled)

def Interrupted (v : Invocation) : Prop :=
  v.status = .timedOut ∨ v.status = .cancelled

theorem RefusedFor.exists_tick {signals : Signals} {i : Interrupt} {v : Invocation}
    (h : v.RefusedFor signals (.ofInterrupt i)) :
    ∃ tick, v.finishedAt = some (.ofTick tick) ∧ signals.interrupt? tick = some i := by
  obtain ⟨-, -, tick, hfinished, hrefused⟩ := h
  obtain ⟨why, hwhy, heq⟩ :=
    Option.map_eq_some_iff.mp (Pool.acquire_eq_refused_iff.mp (hrefused (.ofSize 1) 0))
  rw [Pool.Refusal.ofInterrupt_inj heq] at hwhy
  exact ⟨tick, hfinished, hwhy⟩

end Invocation

namespace Run

/-- A run that blames the deadline only for what the deadline did, and the token for what the token
did alone. -/
structure BlamesRightly (signals : Signals) (o : Outcome) : Prop where
  deadline : o.status = .timedOut → ∃ v ∈ o.invocations, v.CutByDeadline signals
  token : (∃ v ∈ o.invocations, v.Interrupted) →
    (∀ v ∈ o.invocations, v.Interrupted → v.StoppedByToken signals) → o.status = .cancelled

/-- The status of a run that has finished. -/
def Ending.status? : Ending → Option Status
  | .finished o => some o.status
  | _ => none

/-- Both signals come at one tick, and somebody is cancelled. -/
def Tied (signals : Signals) (o : Outcome) : Prop :=
  ∃ tick, signals.cancelAt = some tick ∧ signals.deadlineTick? = some tick ∧
    ∃ v ∈ o.invocations, v.status = .cancelled

variable {ctx : Context} {now : Nat} {b : Branch}

/-! ## Nothing happens after the first signal -/

theorem Branch.Standing.dueAt_le {tick t : Nat} (h : b.Standing ctx now)
    (hfirst : ctx.signals.first? = some t) (hnow : now ≤ t)
    (hdue : b.dueAt ctx.signals now = some tick) : tick ≤ t := by
  unfold dueAt at hdue
  cases hphase : b.phase with
  | fresh | granted =>
    simp only [hphase, Option.some.injEq] at hdue
    omega
  | waiting =>
    simp only [hphase, hfirst, Option.map_some, Option.some.injEq] at hdue
    omega
  | calling rest close =>
    obtain ⟨agent, begun, hcalls⟩ := h.calls hphase
    obtain ⟨hdrafts, hclose⟩ : (Step.trace ctx agent b.invocation begun).By t :=
      Call.trace_by _ _ _ _ hfirst (hcalls.begun.trans hnow)
    obtain ⟨done, htrace, -⟩ := hcalls.drafts
    rw [htrace] at hdrafts
    rw [hcalls.close] at hclose
    simp only [hphase] at hdue
    cases rest with
    | cons next rest =>
      have hnext := hdrafts next (List.mem_append_right _ List.mem_cons_self)
      simp only [Option.some.injEq] at hdue
      omega
    | nil =>
      cases close with
      | closed at_ s r =>
        have hat := hclose at_ rfl
        simp only [Option.some.injEq] at hdue
        omega
      | crashed at_ =>
        have hat := hclose at_ rfl
        simp only [Option.some.injEq] at hdue
        omega
      | never => cases hdue
  | ended =>
    rw [hphase] at hdue
    cases hdue

variable {registry : Registry} {workers : Nat} {references : List AgentReference}

theorem Fleet.Reaches.now_le {f : Fleet} {t : Nat}
    (h : Reaches ctx (start registry workers references) f)
    (hfirst : ctx.signals.first? = some t) : f.now ≤ t := by
  induction h with
  | refl => exact Nat.zero_le t
  | @tail f g hbefore hmove ih =>
    obtain ⟨tick, position, b, b', -, hdue, hb, -, hshift⟩ :=
      hmove.shift (orderly hbefore (orderly_start registry workers references))
    rw [hshift.now_eq]
    exact (standing hbefore (List.mem_of_getElem? hb)).dueAt_le hfirst ih hdue

/-- A run in which the deadline passes ends at the deadline, and no cancellation comes before. -/
theorem MayEndWith.deadline_eq {o : Outcome} (h : MayEndWith ctx registry workers references o)
    (hpassed : ctx.signals.deadlinePassed o.tick = true) :
    ctx.signals.deadlineTick? = some o.tick ∧
      ∀ c, ctx.signals.cancelAt = some c → o.tick ≤ c := by
  obtain ⟨d, hd, hle⟩ := Signals.deadlinePassed_iff.mp hpassed
  obtain ⟨f, hreach, -, rfl⟩ := h
  have htick : (f.outcome ctx.signals).tick = f.now := rfl
  cases hc : ctx.signals.cancelAt with
  | none =>
    have hnow : f.now ≤ d := hreach.now_le (by rw [Signals.first?, hc, hd])
    refine ⟨hd.trans (congrArg some (by omega)), ?_⟩
    intro c h
    cases h
  | some c =>
    have hnow : f.now ≤ min c d := hreach.now_le (by rw [Signals.first?, hc, hd])
    refine ⟨hd.trans (congrArg some (by omega)), ?_⟩
    intro c' h
    cases h
    omega

/-! ## Who is to blame -/

variable {o : Outcome}

theorem Ended.token_of_stopped {signals : Signals} {v : Invocation} (h : Ended signals now v)
    (hstopped : v.StoppedByToken signals) :
    ∃ tick ≤ now, signals.interrupt? tick = some .cancelled := by
  rcases h.cause_of_cancelled hstopped.1 with ⟨-, hcause⟩ |
    ⟨hstarted, tick, why, hfinished, htick, -⟩
  · exact hcause
  · have hrefused := hstopped.2.resolve_left fun hbegun => hbegun hstarted
    obtain ⟨tick', hfinished', hwhy⟩ := Invocation.RefusedFor.exists_tick (i := .cancelled) hrefused
    rw [hfinished, Option.some.injEq] at hfinished'
    rw [← Timestamp.ofTick_inj hfinished'] at hwhy
    exact ⟨tick, htick, hwhy⟩

/-- At a tie nobody is stopped by the deadline, but it is the deadline that the run blames. -/
theorem MayEndWith.not_blamesRightly (h : MayEndWith ctx registry workers references o)
    (htied : Tied ctx.signals o) : ¬ BlamesRightly ctx.signals o := by
  obtain ⟨t, hc, hd, v, hv, hcancelled⟩ := htied
  have hpassed : ctx.signals.deadlinePassed o.tick = true := by
    obtain ⟨first, hfirst, hle⟩ :=
      Signals.interrupt?_isSome_iff.mp ((h.ended hv).interrupt?_isSome hcancelled)
    rw [Signals.first?, hc, hd, Option.some.injEq] at hfirst
    exact Signals.deadlinePassed_of_deadlineTick? hd (by omega)
  have htimedOut : o.status = .timedOut :=
    h.status_eq_timedOut_iff.mpr (Or.inr ⟨⟨v, hv, hcancelled⟩, hpassed⟩)
  intro hright
  obtain ⟨v', hv', hs | hrefused⟩ := hright.deadline htimedOut
  · obtain ⟨tick, -, hwhy⟩ := (h.ended hv').deadline_of_timedOut hs
    exact Signals.ne_deadline_of_tie hc hd tick hwhy
  · obtain ⟨tick, -, hwhy⟩ := Invocation.RefusedFor.exists_tick (i := .deadline) hrefused
    exact Signals.ne_deadline_of_tie hc hd tick hwhy

/-- Unless there is a tie, nothing but the deadline stops a run in which the deadline passes. -/
theorem MayEndWith.ne_cancelled_of_deadlinePassed
    (h : MayEndWith ctx registry workers references o) (huntied : ¬ Tied ctx.signals o)
    {v : Invocation} (hv : v ∈ o.invocations) (hcancelled : v.status = .cancelled)
    (hpassed : ctx.signals.deadlinePassed o.tick = true) {tick : Nat} (htick : tick ≤ o.tick) :
    ctx.signals.interrupt? tick ≠ some .cancelled := by
  obtain ⟨hd, hlater⟩ := h.deadline_eq hpassed
  intro hwhy
  obtain ⟨c, hc, hle⟩ := Signals.isCancelled_iff.mp (Signals.interrupt?_eq_cancelled_iff.mp hwhy)
  have hge := hlater c hc
  have heq : c = o.tick := by omega
  exact huntied ⟨o.tick, hc.trans (congrArg some heq), hd, v, hv, hcancelled⟩

theorem MayEndWith.cutByDeadline_of_timedOut (h : MayEndWith ctx registry workers references o)
    (huntied : ¬ Tied ctx.signals o) (htimedOut : o.status = .timedOut) :
    ∃ v ∈ o.invocations, v.CutByDeadline ctx.signals := by
  rcases h.status_eq_timedOut_iff.mp htimedOut with ⟨v, hv, hs⟩ | ⟨⟨v, hv, hs⟩, hpassed⟩
  · exact ⟨v, hv, Or.inl hs⟩
  · -- it was not the token, so it was in the queue that the deadline reached it
    rcases (h.ended hv).cause_of_cancelled hs with ⟨-, tick, htick, hwhy⟩ |
      ⟨hstarted, tick, why, hfinished, htick, hwhy⟩
    · exact absurd hwhy (h.ne_cancelled_of_deadlinePassed huntied hv hs hpassed htick)
    · cases why with
      | cancelled =>
        exact absurd hwhy (h.ne_cancelled_of_deadlinePassed huntied hv hs hpassed htick)
      | deadline =>
        refine ⟨v, hv, Or.inr ⟨hs, hstarted, tick, hfinished, fun p who => ?_⟩⟩
        exact Pool.acquire_eq_refused_iff.mpr (congrArg _ hwhy)

theorem MayEndWith.cancelled_of_stopped (h : MayEndWith ctx registry workers references o)
    (huntied : ¬ Tied ctx.signals o) (hsome : ∃ v ∈ o.invocations, v.Interrupted)
    (hall : ∀ v ∈ o.invocations, v.Interrupted → v.StoppedByToken ctx.signals) :
    o.status = .cancelled := by
  obtain ⟨v, hv, hinterrupted⟩ := hsome
  have hstopped := hall v hv hinterrupted
  obtain ⟨tick, htick, hwhy⟩ := (h.ended hv).token_of_stopped hstopped
  have htimedOut : o.status ≠ .timedOut := by
    intro htimedOut
    rcases h.status_eq_timedOut_iff.mp htimedOut with ⟨v', hv', hs'⟩ | ⟨-, hpassed⟩
    · have hcancelled := (hall v' hv' (Or.inl hs')).1
      rw [hs'] at hcancelled
      cases hcancelled
    · exact h.ne_cancelled_of_deadlinePassed huntied hv hstopped.1 hpassed htick hwhy
  obtain ⟨c, hc, hle⟩ := Signals.isCancelled_iff.mp (Signals.interrupt?_eq_cancelled_iff.mp hwhy)
  exact h.status_eq_cancelled htimedOut ⟨v, hv, hstopped.1⟩
    (Signals.isCancelled_of_cancelAt hc (hle.trans htick))

/-- However its branches act, a run blames rightly exactly when the deadline and a cancellation do
not come at one tick to somebody who is cancelled. -/
theorem blamesRightly_iff (h : MayEndWith ctx registry workers references o) :
    BlamesRightly ctx.signals o ↔ ¬ Tied ctx.signals o := by
  constructor
  · intro hright htied
    exact h.not_blamesRightly htied hright
  · intro huntied
    exact
      { deadline := h.cutByDeadline_of_timedOut huntied
        token := h.cancelled_of_stopped huntied }

/-- A cancellation shortly before the deadline, with one slot for two agents: the run is
cancelled. -/
theorem blamesRightly_before_deadline :
    let ctx : Context :=
      { task := "t", signals := { cancelAt := some 29, deadline := some 30000000 } }
    let registry : Registry := { agents := [("a", .replay { tail := .hang })] }
    let references : List AgentReference := [{ name := "a" }, { name := "a" }]
    let fleet := Fleet.start registry 1 references
    let o := (Fleet.advance ctx fleet.work fleet).outcome ctx.signals
    MayEndWith ctx registry 1 references o ∧ BlamesRightly ctx.signals o ∧
      o.status = .cancelled := by
  intro ctx registry references fleet o
  have hended : (Fleet.advance ctx fleet.work fleet).branches.all Branch.isEnded = true := by
    decide +kernel
  have hmay : MayEndWith ctx registry 1 references o :=
    mayEndWith_of_sideBySide (sideBySide_of_ended hended)
  have huntied : ¬ Tied ctx.signals o := by
    rintro ⟨tick, hc, hd, -⟩
    cases hc
    exact absurd hd (by decide)
  exact ⟨hmay, (blamesRightly_iff hmay).mpr huntied, by decide +kernel⟩

/-- A cancellation at the tick of the deadline stops both agents, and the run side by side is said
to have timed out, though the run of the same agents one after the other is cancelled. -/
theorem blames_wrongly_at_deadline :
    let references : List AgentReference := [{ name := "a" }, { name := "b" }]
    let spec : Workflow.Spec :=
      { description := none, timeout := some ⟨30000000⟩, composition := .parallel 2,
        subAgents := references }
    let hanging (text : String) : Agent := .replay { script := [.ofText text], tail := .hang }
    let e : Engine := { registry := { agents := [("a", hanging "a"), ("b", hanging "b")] } }
    let ctx : Context := { task := "t", signals := signals spec (some 30) }
    let fleet := Fleet.start e.registry 2 references
    let o := (Fleet.advance ctx fleet.work fleet).outcome ctx.signals
    ofSpec e ctx spec = .finished o ∧ o.status = .timedOut ∧
      (∀ v ∈ o.invocations, v.StoppedByToken ctx.signals) ∧ ¬ BlamesRightly ctx.signals o ∧
        (ofSpec e ctx { spec with composition := .sequential }).status? = some .cancelled := by
  intro references spec hanging e ctx fleet o
  have hended : (Fleet.advance ctx fleet.work fleet).branches.all Branch.isEnded = true := by
    decide +kernel
  have hside : sideBySide ctx e.registry 2 references = .finished o := sideBySide_of_ended hended
  have htimedOut : o.status = .timedOut := by decide +kernel
  have hstopped : ∀ v ∈ o.invocations, v.status = .cancelled ∧ v.startedAt ≠ none := by
    decide +kernel
  have hwrong : ¬ BlamesRightly ctx.signals o := by
    intro hright
    obtain ⟨v, hv, hs | ⟨-, hstarted, -⟩⟩ := hright.deadline htimedOut
    · rw [(hstopped v hv).1] at hs
      cases hs
    · exact (hstopped v hv).2 hstarted
  exact ⟨hside, htimedOut, fun v hv => ⟨(hstopped v hv).1, Or.inl (hstopped v hv).2⟩, hwrong,
    by decide +kernel⟩

end Run

end Ensemble
