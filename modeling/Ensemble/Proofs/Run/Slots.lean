import Ensemble.Proofs.Call.Closing
import Ensemble.Proofs.Run.Feed
import Ensemble.Proofs.Workflow.Bounds
import Ensemble.Run.Basic

/-!
Bounded fan-out.  Whoever has begun and not ended holds a slot, and there are only so many slots;
and whenever all branches wait for time to pass, every slot that could be taken has been taken.
-/

namespace Ensemble

def EventDraft.finishes (d : EventDraft) : Bool :=
  d.status?.any Status.isTerminal

/-- Drafts that report that somebody is running, and not that it is over. -/
def EventDraft.open? (ds : List EventDraft) : Bool :=
  ds.any begins && !ds.any finishes

theorem Block.any_finishes {author id : String} {s : Status} {r : Option Response}
    {ds : List EventDraft} (h : Block author id s r ds) : ds.any EventDraft.finishes = true := by
  have hterminal := h.isTerminal
  obtain ⟨before, d, rfl, -, -⟩ := h.eq_append
  simp [EventDraft.finishes, EventDraft.status?, EventDraft.status, hterminal]

namespace Run

namespace Branch

def hasBegun (b : Branch) : Bool :=
  b.session.drafts.any EventDraft.begins

/-- A branch that has begun to run and whose task has not ended. -/
def isBusy (b : Branch) : Bool :=
  b.hasBegun && !b.isEnded

/-- A branch whose agent does not crash. -/
def isLive (b : Branch) : Bool :=
  b.agent ≠ .ok .crashing

/-- Whether events show a branch as running and not as over. -/
def isOpenIn (es : List RunEvent) (b : Branch) : Bool :=
  EventDraft.open? (RunEvent.draftsOf b.session.id es)

variable {ctx : Context} {now : Nat} {b : Branch}

theorem Untouched.hasBegun_eq (h : b.Untouched) : b.hasBegun = false := by
  rw [hasBegun, h.1.1, List.any_nil]

theorem Standing.holdsSlot_of_isBusy (h : b.Standing ctx now) (hbusy : b.isBusy = true) :
    b.holdsSlot = true := by
  rw [isBusy, Bool.and_eq_true, Bool.not_eq_true'] at hbusy
  obtain ⟨hbegun, hgoing⟩ := hbusy
  cases hphase : b.phase with
  | fresh =>
    rw [(h.untouched (Or.inl hphase)).hasBegun_eq] at hbegun
    cases hbegun
  | waiting =>
    rw [(h.untouched (Or.inr (Or.inl hphase))).hasBegun_eq] at hbegun
    cases hbegun
  | granted => rw [holdsSlot, hphase]
  | calling rest close => rw [holdsSlot, hphase]
  | ended =>
    rw [isEnded, hphase] at hgoing
    cases hgoing

/-- The log of a branch that has ended without a crash is not left open. -/
theorem Fate.open?_eq (h : b.Fate ctx now) (hlive : b.isLive = true) :
    EventDraft.open? b.session.drafts = false := by
  cases h with
  | unresolved hagent hstatus hlog =>
    rw [hlog]
    rfl
  | gaveUp hagent hwhy htick hstatus hstarted hfinished hlog =>
    rw [hlog]
    rfl
  | @closed agent start tick s r hagent hcalm hclose htick hstatus hstarted hlog =>
    have hblock : Block b.invocation.author b.invocation.id s r b.session.drafts := by
      rw [hlog]
      refine Call.trace_block ?_ hclose
      rintro rfl
      rw [isLive, hagent] at hlive
      cases hlive
    rw [EventDraft.open?, hblock.any_finishes, Bool.not_true, Bool.and_false]
  | crashed hagent =>
    rw [isLive, hagent] at hlive
    cases hlive

theorem Standing.holdsSlot_of_open? (h : b.Standing ctx now) (hlive : b.isLive = true)
    (hopen : EventDraft.open? b.session.drafts = true) : b.holdsSlot = true := by
  apply h.holdsSlot_of_isBusy
  rw [isBusy, Bool.and_eq_true, Bool.not_eq_true']
  constructor
  · rw [EventDraft.open?, Bool.and_eq_true] at hopen
    exact hopen.1
  · by_contra hended
    rw [Bool.not_eq_false] at hended
    rw [(h.fate hended).open?_eq hlive] at hopen
    cases hopen

/-- A call whose next event is yet to come has begun. -/
theorem Calls.hasBegun {agent : Agent} {start : Nat} {rest : List (Nat × EventDraft)}
    {close : Close} (h : b.Calls ctx now agent start rest close)
    (hlater : ∀ tick d more, rest = (tick, d) :: more → now < tick) : b.hasBegun = true := by
  obtain ⟨done, htrace, hdone⟩ := h.drafts
  obtain ⟨more, hmore, -⟩ := Call.exists_drafts_eq agent ctx.signals ctx.stream b.invocation.author
    b.invocation.id start
  rw [Step.trace, hmore] at htrace
  cases done with
  | nil =>
    -- then the very first event is still to come, though it is due when the call begins
    have hlt := hlater _ _ _ htrace.symm
    have hle := h.begun
    omega
  | cons first done =>
    rw [List.cons_append, List.cons.injEq] at htrace
    rw [Branch.hasBegun, hdone, ← htrace.1]
    rfl

/-- A branch with an agent has begun if it has ended before anything interrupts. -/
theorem Fate.hasBegun {agent : Agent} (h : b.Fate ctx now) (hagent : b.agent = .ok agent)
    (hcalm : ctx.signals.interrupt? now = none) : b.hasBegun = true := by
  cases h with
  | unresolved hnone =>
    rw [hagent] at hnone
    cases hnone
  | gaveUp _ hwhy htick =>
    have hsome := Signals.interrupt?_isSome_mono (Option.isSome_of_eq_some hwhy) htick
    rw [hcalm] at hsome
    cases hsome
  | @closed agent start tick s r _ _ _ _ _ _ hlog =>
    obtain ⟨more, hmore, -⟩ := Call.exists_drafts_eq agent ctx.signals ctx.stream b.invocation.author
      b.invocation.id start
    rw [Branch.hasBegun, hlog, Step.trace, hmore]
    rfl
  | crashed _ _ hlog =>
    rw [Branch.hasBegun, hlog]
    rfl

end Branch

namespace Fleet

variable {ctx : Context} {f : Fleet} {registry : Registry} {workers : Nat}
  {references : List AgentReference}

theorem Orderly.countP_holdsSlot_le (h : f.Orderly 0) :
    f.branches.countP Branch.holdsSlot ≤ f.pool.size := by
  have hbalance := h.balance
  omega

theorem Reaches.countP_isBusy_le (h : Reaches ctx (start registry workers references) f) :
    f.branches.countP Branch.isBusy ≤ f.pool.size := by
  have horderly := h.orderly (orderly_start registry workers references)
  refine Nat.le_trans (List.countP_mono_left fun b hb hbusy => ?_) horderly.countP_holdsSlot_le
  exact (h.standing hb).holdsSlot_of_isBusy hbusy

/-! ## The feed -/

/-- How many branches whose agents do not crash are shown as running and not as over. -/
def shown (f : Fleet) (es : List RunEvent) : Nat :=
  f.branches.countP fun b => b.isLive && b.isOpenIn es

/-- Whom events show does not depend on how far the branches have come. -/
theorem shown_eq_of_origin {g : Fleet}
    (h : g.branches.map Branch.origin = f.branches.map Branch.origin) (es : List RunEvent) :
    g.shown es = f.shown es := by
  have hshown (f : Fleet) : f.shown es = (f.branches.map Branch.origin).countP fun o =>
      o.1 ≠ .ok .crashing && EventDraft.open? (RunEvent.draftsOf o.2 es) := by
    rw [List.countP_map]
    rfl
  rw [hshown, hshown, h]

theorem shown_concat {e : RunEvent} (hquiet : e.event.draft.status? = none)
    (es : List RunEvent) : f.shown (es ++ [e]) = f.shown es := by
  have hopen (ds : List EventDraft) {d : EventDraft} (hd : d.status? = none) :
      EventDraft.open? (ds ++ [d]) = EventDraft.open? ds := by
    simp [EventDraft.open?, EventDraft.begins, EventDraft.finishes, hd]
  have hsame (b : Branch) : b.isOpenIn (es ++ [e]) = b.isOpenIn es := by
    rw [Branch.isOpenIn, RunEvent.draftsOf_append, Branch.isOpenIn]
    by_cases hid : e.sessionId = b.session.id
    · simp [RunEvent.draftsOf, hid, hopen _ hquiet]
    · simp [RunEvent.draftsOf, hid]
  simp only [shown, hsame]

theorem Reaches.shown_events_le (h : Reaches ctx (start registry workers references) f) :
    f.shown f.events ≤ f.pool.size := by
  have horderly := h.orderly (orderly_start registry workers references)
  refine Nat.le_trans (List.countP_mono_left fun b hb hshown => ?_) horderly.countP_holdsSlot_le
  rw [Bool.and_eq_true] at hshown
  obtain ⟨i, hi⟩ := List.getElem?_of_mem hb
  rw [Branch.isOpenIn, h.draftsOf_eq hi] at hshown
  exact (h.standing hb).holdsSlot_of_open? hshown.1 hshown.2

/-- At no point does the feed show more branches than there are slots. -/
theorem Reaches.shown_le (h : Reaches ctx (start registry workers references) f)
    {es : List RunEvent} (hes : es <+: f.events) : f.shown es ≤ f.pool.size := by
  have hstart := orderly_start registry workers references
  induction h generalizing es with
  | refl =>
    rw [List.prefix_nil.mp hes]
    exact Nat.le_trans (Nat.le_of_eq (List.countP_eq_zero.mpr fun b _ => by
      simp [Branch.isOpenIn, RunEvent.draftsOf, EventDraft.open?])) (Nat.zero_le _)
  | @tail g f hbefore hmove ih =>
    have hafter : Reaches ctx (start registry workers references) f := hbefore.tail hmove
    have horigin := (hafter.origin_eq hstart).trans (Reaches.origin_eq hbefore hstart).symm
    have hshown : ∀ es, f.shown es = g.shown es := shown_eq_of_origin horigin
    have hsize : f.pool.size = g.pool.size :=
      (hafter.size_eq hstart).trans (Reaches.size_eq hbefore hstart).symm
    obtain ⟨tick, position, b, b', -, -, hb, hmoves, hshift⟩ :=
      hmove.shift (Reaches.orderly hbefore hstart)
    have hevents := hshift.events_eq
    rw [hevents] at hes
    rcases prefix_update (f := { g with now := tick }) hb hmoves hes with hes | hes | ⟨e, hes, he⟩
    · rw [hshown, hsize]
      exact ih hes
    · rw [hes, ← hevents]
      exact hafter.shown_events_le
    · rw [hes, hshown, hsize, shown_concat he]
      exact ih (List.prefix_refl _)

/-! ## No slot is lost -/

/-- All branches that can still act wait for time to pass. -/
def Suspended (ctx : Context) (f : Fleet) : Prop :=
  ∀ b ∈ f.branches, ∀ tick ∈ b.dueAt ctx.signals f.now, f.now < tick

/-- While all are suspended, a branch waits, calls its agent or has ended. -/
theorem Suspended.phase_cases {b : Branch} (h : f.Suspended ctx) (hb : b ∈ f.branches) :
    b.phase = .waiting ∨ (∃ rest close, b.phase = .calling rest close) ∨ b.phase = .ended := by
  have hnow : b.dueAt ctx.signals f.now ≠ some f.now := by
    intro hdue
    have hlt := h b hb f.now hdue
    omega
  unfold Branch.dueAt at hnow
  cases hphase : b.phase with
  | fresh =>
    rw [hphase] at hnow
    exact absurd rfl hnow
  | granted =>
    rw [hphase] at hnow
    exact absurd rfl hnow
  | waiting => exact Or.inl rfl
  | calling rest close => exact Or.inr (Or.inl ⟨_, _, rfl⟩)
  | ended => exact Or.inr (Or.inr rfl)

theorem Suspended.hasBegun_of_calling {b : Branch} {rest : List (Nat × EventDraft)} {close : Close}
    (hsuspended : f.Suspended ctx) (h : Reaches ctx (start registry workers references) f)
    (hb : b ∈ f.branches) (hphase : b.phase = .calling rest close) : b.hasBegun = true := by
  obtain ⟨agent, begun, hcalls⟩ := (h.standing hb).calls hphase
  refine hcalls.hasBegun ?_
  rintro tick d more rfl
  have hdue : b.dueAt ctx.signals f.now = some (max tick f.now) := by rw [Branch.dueAt, hphase]
  have hlt := hsuspended b hb _ hdue
  omega

/-- If fewer branches are busy than there are slots, none is left waiting for one. -/
theorem Suspended.hasBegun {b : Branch} {agent : Agent} (hsuspended : f.Suspended ctx)
    (hcalm : ctx.signals.interrupt? f.now = none)
    (h : Reaches ctx (start registry workers references) f)
    (hfew : f.branches.countP Branch.isBusy < f.pool.size) (hb : b ∈ f.branches)
    (hagent : b.agent = .ok agent) : b.isWaiting = false ∧ b.hasBegun = true := by
  have horderly := h.orderly (orderly_start registry workers references)
  -- who holds a slot is busy, so some slot is free, so the queue is empty
  have hbusy : f.branches.countP Branch.holdsSlot ≤ f.branches.countP Branch.isBusy := by
    refine List.countP_mono_left fun x hx hslot => ?_
    rcases hsuspended.phase_cases hx with hphase | ⟨rest, close, hphase⟩ | hphase
    · rw [Branch.holdsSlot, hphase] at hslot
      cases hslot
    · rw [Branch.isBusy, hsuspended.hasBegun_of_calling h hx hphase, Branch.isEnded, hphase]
      rfl
    · rw [Branch.holdsSlot, hphase] at hslot
      cases hslot
  have hempty : f.pool.waiting = [] := by
    have hbalance := horderly.balance
    exact horderly.eager.resolve_left (by omega)
  have hwaiting : b.isWaiting = false := horderly.isWaiting_eq_of_nil hempty hb
  refine ⟨hwaiting, ?_⟩
  rcases hsuspended.phase_cases hb with hphase | ⟨rest, close, hphase⟩ | hphase
  · rw [Branch.isWaiting_iff.mpr hphase] at hwaiting
    cases hwaiting
  · exact hsuspended.hasBegun_of_calling h hb hphase
  · exact ((h.standing hb).fate (by rw [Branch.isEnded, hphase])).hasBegun hagent hcalm

/-! ## Runs of definitions -/

/-- What a limit on the workers means for a fleet: no more branches are busy at a time, no more are
shown to be, and nobody is kept waiting while fewer are busy. -/
structure Bounded (ctx : Context) (workers : Nat) (f : Fleet) : Prop where
  busy : f.branches.countP Branch.isBusy ≤ workers
  shown : ∀ es, es <+: f.events → f.shown es ≤ workers
  full : f.Suspended ctx → ctx.signals.interrupt? f.now = none →
    f.branches.countP Branch.isBusy < workers →
      ∀ b ∈ f.branches, ∀ agent, b.agent = .ok agent → b.isWaiting = false ∧ b.hasBegun = true

/-- Whatever the agents of a parallel definition do, whatever interrupts them and in whatever order
they act, its limit on the workers is kept and made use of. -/
theorem bounded_of_reaches (ctx : Context) (registry : Registry) {d : Workflow.Definition}
    {spec : Workflow.Spec} {defaultWorkers : UInt32} {workers : Nat}
    (hvalid : d.validate defaultWorkers = .ok spec)
    (hparallel : spec.composition = .parallel workers) {f : Fleet}
    (h : Reaches ctx (start registry workers spec.subAgents) f) : f.Bounded ctx workers := by
  have hbounds := (Workflow.Definition.bounds_of_validate hvalid).1
  rw [hparallel] at hbounds
  have hsize : f.pool.size = workers := by
    have hmax : max workers 1 = workers := Nat.max_eq_left hbounds.1
    exact (h.size_eq (orderly_start registry workers spec.subAgents)).trans hmax
  constructor
  case busy => exact hsize ▸ h.countP_isBusy_le
  case shown => exact fun es hes => hsize ▸ h.shown_le hes
  case full =>
    intro hsuspended hcalm hfew b hb agent hagent
    exact hsuspended.hasBegun hcalm h (hsize ▸ hfew) hb hagent

/-- Two slots for an agent that crashes, one that hangs and one that needs time: when only the
second is left, the third has long had the slot of the first. -/
theorem bounded_of_reaches_crash :
    let references : List AgentReference := [{ name := "a" }, { name := "b" }, { name := "c" }]
    let d : Workflow.Definition :=
      { timeout := some "1s", parallel := some { subAgents := references, maxWorkers := some 2 } }
    let spec : Workflow.Spec :=
      { description := none, timeout := some ⟨1000000000⟩, composition := .parallel 2,
        subAgents := references }
    let slow : Replay := { script := [.ofText "hi", .ofText "there"], delay := 2 }
    let registry : Registry :=
      { agents := [("a", .crashing), ("b", .replay { tail := .hang }), ("c", .replay slow)] }
    let ctx : Context := { task := "t", signals := signals spec none }
    let fleet := Fleet.start registry 2 references
    let f := Fleet.advance ctx 12 fleet
    d.validate 10 = .ok spec ∧ spec.composition = .parallel 2 ∧ Reaches ctx fleet f ∧
      f.Bounded ctx 2 ∧ f.Suspended ctx ∧ ctx.signals.interrupt? f.now = none ∧
        f.branches.countP Branch.isBusy = 1 := by
  intro references d spec slow registry ctx fleet f
  have hvalid : d.validate 10 = .ok spec := by decide +kernel
  have hreaches : Reaches ctx fleet f := reaches_advance ctx 12 fleet
  have hsuspended : f.Suspended ctx := by
    rw [Suspended]
    decide +kernel
  have hcalm : ctx.signals.interrupt? f.now = none := by decide +kernel
  have hbusy : f.branches.countP Branch.isBusy = 1 := by decide +kernel
  exact ⟨hvalid, rfl, hreaches, bounded_of_reaches ctx registry hvalid rfl hreaches, hsuspended,
    hcalm, hbusy⟩

end Fleet

end Run

end Ensemble
