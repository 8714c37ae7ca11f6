import Ensemble.Proofs.Run.Feed
import Ensemble.Proofs.Run.History
import Ensemble.Proofs.Run.Termination

/-!
The result of a run side by side.  Every reference has a session and an invocation of its own at its
place, and the status of the run is read off the final statuses of the invocations: one that was cut
short is never hidden behind the others.
-/

namespace Ensemble.Run

/-- Why an invocation has ended as it did, by a tick: nothing stopped it, the deadline or the token
stopped its call, or it was refused a slot. -/
inductive Ended (signals : Signals) (now : Nat) (v : Invocation) : Prop
  | unstopped (hstatus : v.status = .succeeded ∨ v.status = .failed)
  | deadline {tick : Nat} (hstatus : v.status = .timedOut) (htick : tick ≤ now)
      (hwhy : signals.interrupt? tick = some .deadline)
  | token {tick : Nat} (hstatus : v.status = .cancelled) (hstarted : v.startedAt ≠ none)
      (htick : tick ≤ now) (hwhy : signals.interrupt? tick = some .cancelled)
  | refused {tick : Nat} {why : Interrupt} (hstatus : v.status = .cancelled)
      (hstarted : v.startedAt = none) (hfinished : v.finishedAt = some (.ofTick tick))
      (htick : tick ≤ now) (hwhy : signals.interrupt? tick = some why)

namespace Ended

variable {signals : Signals} {now : Nat} {v : Invocation}

theorem isTerminal (h : Ended signals now v) : v.status.isTerminal = true := by
  cases h with
  | unstopped hstatus => rcases hstatus with hstatus | hstatus <;> rw [hstatus] <;> rfl
  | deadline hstatus => rw [hstatus]; rfl
  | token hstatus => rw [hstatus]; rfl
  | refused hstatus => rw [hstatus]; rfl

theorem deadline_of_timedOut (h : Ended signals now v) (htimedOut : v.status = .timedOut) :
    ∃ tick ≤ now, signals.interrupt? tick = some .deadline := by
  cases h with
  | deadline hstatus htick hwhy => exact ⟨_, htick, hwhy⟩
  | unstopped hstatus =>
    rw [htimedOut] at hstatus
    rcases hstatus with hstatus | hstatus <;> cases hstatus
  | token hstatus | refused hstatus =>
    rw [htimedOut] at hstatus
    cases hstatus

/-- Who was cancelled was stopped by the token in the middle of a call, or was refused a slot. -/
theorem cause_of_cancelled (h : Ended signals now v) (hcancelled : v.status = .cancelled) :
    (v.startedAt ≠ none ∧ ∃ tick ≤ now, signals.interrupt? tick = some .cancelled) ∨
      (v.startedAt = none ∧ ∃ tick why, v.finishedAt = some (.ofTick tick) ∧ tick ≤ now ∧
        signals.interrupt? tick = some why) := by
  cases h with
  | token hstatus hstarted htick hwhy => exact Or.inl ⟨hstarted, _, htick, hwhy⟩
  | refused hstatus hstarted hfinished htick hwhy =>
    exact Or.inr ⟨hstarted, _, _, hfinished, htick, hwhy⟩
  | unstopped hstatus =>
    rw [hcancelled] at hstatus
    rcases hstatus with hstatus | hstatus <;> cases hstatus
  | deadline hstatus =>
    rw [hcancelled] at hstatus
    cases hstatus

/-- Nobody is cancelled before something interrupts. -/
theorem interrupt?_isSome (h : Ended signals now v) (hcancelled : v.status = .cancelled) :
    (signals.interrupt? now).isSome = true := by
  rcases h.cause_of_cancelled hcancelled with ⟨-, tick, htick, hwhy⟩ |
    ⟨-, tick, why, -, htick, hwhy⟩
  · exact Signals.interrupt?_isSome_mono (Option.isSome_of_eq_some hwhy) htick
  · exact Signals.interrupt?_isSome_mono (Option.isSome_of_eq_some hwhy) htick

end Ended

theorem Branch.Fate.ended {ctx : Context} {now : Nat} {b : Branch} (h : b.Fate ctx now) :
    Ended ctx.signals now b.invocation := by
  cases h with
  | unresolved hagent hstatus hlog => exact .unstopped (Or.inr hstatus)
  | gaveUp hagent hwhy htick hstatus hstarted hfinished hlog =>
    exact .refused hstatus hstarted hfinished htick hwhy
  | @closed agent start tick s r hagent hcalm hclose htick hstatus hstarted hlog =>
    rcases Call.close_cause hclose with hs | ⟨why, hs, hwhy⟩
    · rw [← hstatus] at hs
      exact .unstopped hs
    · cases why with
      | cancelled =>
        exact .token (hstatus.trans hs) (by rw [hstarted]; exact Option.some_ne_none _) htick hwhy
      | deadline => exact .deadline (hstatus.trans hs) htick hwhy
  | crashed hagent hstatus hlog => exact .unstopped (Or.inr hstatus)

namespace Fleet

variable {f : Fleet}

theorem anyWith_iff {s : Status} : f.anyWith s = true ↔ ∃ v ∈ f.invocations, v.status = s := by
  rw [anyWith, List.any_eq_true]
  simp only [decide_eq_true_eq]

theorem status_eq_timedOut_iff {signals : Signals} :
    f.status signals = .timedOut ↔
      f.anyWith .timedOut = true ∨
        (f.anyWith .cancelled = true ∧ signals.deadlinePassed f.now = true) := by
  unfold status
  rw [← Bool.and_eq_true, ← Bool.or_eq_true]
  by_cases htimedOut : (f.anyWith .timedOut ||
    f.anyWith .cancelled && signals.deadlinePassed f.now) = true
  · rw [if_pos htimedOut]
    exact iff_of_true rfl htimedOut
  · rw [if_neg htimedOut]
    refine iff_of_false ?_ htimedOut
    split
    · nofun
    · split <;> nofun

theorem status_eq_cancelled {signals : Signals} (htimedOut : f.status signals ≠ .timedOut)
    (hcancelled : f.anyWith .cancelled = true) (htoken : signals.isCancelled f.now = true) :
    f.status signals = .cancelled := by
  rw [ne_eq, status_eq_timedOut_iff, ← Bool.and_eq_true, ← Bool.or_eq_true] at htimedOut
  rw [status, if_neg htimedOut, htoken, hcancelled]
  rfl

/-- Signals that have not come yet do not matter to the status. -/
theorem status_of_calm {signals signals' : Signals} (h : signals.interrupt? f.now = none)
    (h' : signals'.interrupt? f.now = none) : f.status signals = f.status signals' := by
  obtain ⟨hcancelled, hpassed⟩ := Signals.interrupt?_eq_none_iff.mp h
  obtain ⟨hcancelled', hpassed'⟩ := Signals.interrupt?_eq_none_iff.mp h'
  rw [status, status, hcancelled, hpassed, hcancelled', hpassed']

theorem forall_failed_iff (hterminal : ∀ v ∈ f.invocations, v.status.isTerminal = true) :
    (∀ v ∈ f.invocations, v.status = .failed) ↔
      f.anyWith .timedOut = false ∧ f.anyWith .cancelled = false ∧
        f.anyWith .succeeded = false := by
  simp only [← Bool.not_eq_true, anyWith_iff]
  constructor
  · intro h
    refine ⟨?_, ?_, ?_⟩
    all_goals
      rintro ⟨v, hv, hs⟩
      rw [h v hv] at hs
      cases hs
  · rintro ⟨htimedOut, hcancelled, hsucceeded⟩ v hv
    have hv' := hterminal v hv
    cases hs : v.status with
    | pending | running =>
      rw [hs] at hv'
      cases hv'
    | succeeded => exact absurd ⟨v, hv, hs⟩ hsucceeded
    | failed => rfl
    | timedOut => exact absurd ⟨v, hv, hs⟩ htimedOut
    | cancelled => exact absurd ⟨v, hv, hs⟩ hcancelled

/-- The rule for the status of a run, when all invocations have ended and none was cancelled before
something interrupted. -/
theorem status_cases (signals : Signals)
    (hterminal : ∀ v ∈ f.invocations, v.status.isTerminal = true)
    (hcause : f.anyWith .cancelled = true → (signals.interrupt? f.now).isSome = true) :
    (f.status signals = .succeeded ↔ f.anyWith .timedOut = false ∧ f.anyWith .cancelled = false ∧
      f.anyWith .succeeded = true) ∧
    (f.status signals = .failed ↔ ∀ v ∈ f.invocations, v.status = .failed) ∧
    ((f.status signals = .timedOut ∨ f.status signals = .cancelled) ↔
      f.anyWith .timedOut = true ∨ f.anyWith .cancelled = true) := by
  rw [forall_failed_iff hterminal]
  unfold status
  cases htimedOut : f.anyWith .timedOut
  · cases hcancelled : f.anyWith .cancelled
    · cases f.anyWith .succeeded <;> simp
    · -- what interrupted is still there when the status is read off
      rcases Signals.interrupt?_isSome_iff_or.mp (hcause hcancelled) with hsome | hsome
      · cases signals.deadlinePassed f.now <;> simp [hsome]
      · simp [hsome]
  · simp

end Fleet

/-- What the outcome of a run side by side holds. -/
structure Gathered (references : List AgentReference) (o : Outcome) : Prop where
  sessions : o.sessions.length = references.length
  invocations : o.invocations.length = references.length
  own : (o.sessions.map Session.id).Nodup
  places : ∀ (i : Nat) (r : AgentReference), references[i]? = some r →
    ∃ (s : Session) (v : Invocation), o.sessions[i]? = some s ∧ o.invocations[i]? = some v ∧
      v.agent = r ∧ v.sessionId = s.id
  terminal : ∀ v ∈ o.invocations, v.status.isTerminal = true
  succeeded : o.status = .succeeded ↔
    (∀ v ∈ o.invocations, v.status ≠ .timedOut ∧ v.status ≠ .cancelled) ∧
      ∃ v ∈ o.invocations, v.status = .succeeded
  failed : o.status = .failed ↔ ∀ v ∈ o.invocations, v.status = .failed
  cutShort : (o.status = .timedOut ∨ o.status = .cancelled) ↔
    ∃ v ∈ o.invocations, v.status = .timedOut ∨ v.status = .cancelled

variable {ctx : Context} {registry : Registry} {workers : Nat} {references : List AgentReference}
  {o : Outcome}

theorem MayEndWith.ended (h : MayEndWith ctx registry workers references o) {v : Invocation}
    (hv : v ∈ o.invocations) : Ended ctx.signals o.tick v := by
  obtain ⟨f, hreach, hended, rfl⟩ := h
  obtain ⟨b, hb, rfl⟩ := List.mem_map.mp hv
  exact ((hreach.standing hb).fate (List.all_eq_true.mp hended b hb)).ended

theorem MayEndWith.status_eq_timedOut_iff (h : MayEndWith ctx registry workers references o) :
    o.status = .timedOut ↔ (∃ v ∈ o.invocations, v.status = .timedOut) ∨
      ((∃ v ∈ o.invocations, v.status = .cancelled) ∧
        ctx.signals.deadlinePassed o.tick = true) := by
  obtain ⟨f, -, -, rfl⟩ := h
  refine Fleet.status_eq_timedOut_iff.trans ?_
  rw [Fleet.anyWith_iff, Fleet.anyWith_iff]
  rfl

theorem MayEndWith.status_eq_cancelled (h : MayEndWith ctx registry workers references o)
    (htimedOut : o.status ≠ .timedOut) (hcancelled : ∃ v ∈ o.invocations, v.status = .cancelled)
    (htoken : ctx.signals.isCancelled o.tick = true) : o.status = .cancelled := by
  obtain ⟨f, -, -, rfl⟩ := h
  exact Fleet.status_eq_cancelled htimedOut (Fleet.anyWith_iff.mpr hcancelled) htoken

theorem MayEndWith.gathered (h : MayEndWith ctx registry workers references o) :
    Gathered references o := by
  have hterminal : ∀ v ∈ o.invocations, v.status.isTerminal = true :=
    fun _ hv => (h.ended hv).isTerminal
  have hplaces : ∀ (i : Nat) (r : AgentReference), references[i]? = some r →
      ∃ (s : Session) (v : Invocation), o.sessions[i]? = some s ∧ o.invocations[i]? = some v ∧
        v.agent = r ∧ v.sessionId = s.id := by
    intro i r hr
    obtain ⟨b, hs, hv, hb, -⟩ := h.exists_branch hr
    exact ⟨_, _, hs, hv, hb.reference, hb.session⟩
  have hcause : ∀ v ∈ o.invocations, v.status = .cancelled →
      (ctx.signals.interrupt? o.tick).isSome = true :=
    fun _ hv => (h.ended hv).interrupt?_isSome
  obtain ⟨f, hreach, hended, rfl⟩ := h
  obtain ⟨hsucceeded, hfailed, hcut⟩ := Fleet.status_cases ctx.signals hterminal
    fun hany => by
      obtain ⟨v, hv, hs⟩ := Fleet.anyWith_iff.mp hany
      exact hcause v hv hs
  constructor
  case sessions => exact (List.length_map _).trans hreach.length_branches
  case invocations => exact (List.length_map _).trans hreach.length_branches
  case own =>
    rw [Fleet.outcome, List.map_map]
    exact hreach.nodup_ids
  case places => exact hplaces
  case terminal => exact hterminal
  case succeeded =>
    refine hsucceeded.trans ?_
    simp only [← Bool.not_eq_true, Fleet.anyWith_iff]
    constructor
    · rintro ⟨htimedOut, hcancelled, hany⟩
      exact ⟨fun v hv => ⟨fun hs => htimedOut ⟨v, hv, hs⟩, fun hs => hcancelled ⟨v, hv, hs⟩⟩, hany⟩
    · rintro ⟨hneither, hany⟩
      refine ⟨?_, ?_, hany⟩
      · rintro ⟨v, hv, hs⟩
        exact (hneither v hv).1 hs
      · rintro ⟨v, hv, hs⟩
        exact (hneither v hv).2 hs
  case failed => exact hfailed
  case cutShort =>
    refine hcut.trans ?_
    rw [Fleet.anyWith_iff, Fleet.anyWith_iff]
    constructor
    · rintro (⟨v, hv, hs⟩ | ⟨v, hv, hs⟩)
      · exact ⟨v, hv, Or.inl hs⟩
      · exact ⟨v, hv, Or.inr hs⟩
    · rintro ⟨v, hv, hs | hs⟩
      · exact Or.inl ⟨v, hv, hs⟩
      · exact Or.inr ⟨v, hv, hs⟩

/-- A run of a parallel spec finishes with a result that holds everything, in whatever order its
branches end, or it waits for ever and nothing could have interrupted it. -/
theorem ofSpec_gathered (e : Engine) (ctx : Context) {spec : Workflow.Spec} {workers : Nat}
    (hparallel : spec.composition = .parallel workers) :
    (∀ o, MayEndWith ctx e.registry workers spec.subAgents o → Gathered spec.subAgents o) ∧
      ((∃ o, ofSpec e ctx spec = .finished o ∧
          MayEndWith ctx e.registry workers spec.subAgents o) ∨
        (ofSpec e ctx spec = .hang ∧ ctx.signals = {})) := by
  have hside : ofSpec e ctx spec = sideBySide ctx e.registry workers spec.subAgents := by
    rw [ofSpec, hparallel]
  refine ⟨fun o h => h.gathered, ?_⟩
  rw [hside]
  rcases sideBySide_cases ctx e.registry workers spec.subAgents with ⟨o, ho⟩ | hhang
  · exact Or.inl ⟨o, ho, mayEndWith_of_sideBySide ho⟩
  · exact Or.inr hhang

/-- One slot for a crash, a reference to nobody, an agent that is cancelled and one that is still in
the queue: the run is cancelled. -/
theorem ofSpec_gathered_cancelled :
    let references : List AgentReference :=
      [{ name := "a" }, { name := "x" }, { name := "b" }, { name := "c" }]
    let spec : Workflow.Spec :=
      { description := none, timeout := none, composition := .parallel 1,
        subAgents := references }
    let e : Engine :=
      { registry :=
          { agents := [("a", .crashing), ("b", .replay { tail := .hang }),
              ("c", .replay (.ofText "ok"))] } }
    let ctx : Context := { task := "t", signals := { cancelAt := some 3 } }
    let fleet := Fleet.start e.registry 1 references
    let o := (Fleet.advance ctx fleet.work fleet).outcome ctx.signals
    spec.composition = .parallel 1 ∧ ofSpec e ctx spec = .finished o ∧ Gathered references o ∧
      o.status = .cancelled ∧
        o.invocations.map Invocation.status = [.failed, .failed, .cancelled, .cancelled] := by
  intro references spec e ctx fleet o
  have hparallel : spec.composition = .parallel 1 := rfl
  have hended : (Fleet.advance ctx fleet.work fleet).branches.all Branch.isEnded = true := by
    decide +kernel
  have hside : sideBySide ctx e.registry 1 references = .finished o := sideBySide_of_ended hended
  have hgathered : Gathered references o :=
    (ofSpec_gathered e ctx hparallel).1 o (mayEndWith_of_sideBySide hside)
  have hstatus : o.status = .cancelled := by decide +kernel
  exact ⟨hparallel, hside, hgathered, hstatus, by decide +kernel⟩

end Ensemble.Run
