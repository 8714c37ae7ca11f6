import Ensemble.Proofs.Call.Cause
import Ensemble.Proofs.Run.Interleaving

/-!
Where a branch stands, and how it came there.  Whatever the other branches do, a branch is silent
until it begins its call at some tick; then its session takes what this one call adds, and its
invocation ends as the call closes.  A branch may also end because its reference names no agent,
because it gave up waiting for a slot, or because its task crashed.
-/

namespace Ensemble

@[simp] theorem Step.trace_transition (ctx : Run.Context) (agent : Agent) (i : Invocation)
    (now : Nat) (s : Status) (start : Nat) :
    trace ctx agent (i.transition now s) start = trace ctx agent i start := by
  rw [trace, Invocation.author_transition, Invocation.id_transition, trace]

theorem Call.eq_crashing_of_close {agent : Agent} {signals : Signals} {stream : Bool}
    {author id : String} {now tick : Nat}
    (h : (trace agent signals stream author id now).close = .crashed tick) : agent = .crashing := by
  by_contra hagent
  exact close_trace_ne_crashed hagent h

namespace Run.Branch

/-- A branch in the middle of the call that it began at a tick, with the rest of the call. -/
structure Calls (ctx : Context) (now : Nat) (b : Branch) (agent : Agent) (start : Nat)
    (rest : List (Nat × EventDraft)) (close : Close) : Prop where
  resolved : b.agent = .ok agent
  calm : ctx.signals.interrupt? start = none
  begun : start ≤ now
  running : b.invocation.status = .running
  startedAt : b.invocation.startedAt = some (.ofTick start)
  drafts : ∃ done, (Step.trace ctx agent b.invocation start).drafts = done ++ rest ∧
    b.session.drafts = done.map Prod.snd
  close : (Step.trace ctx agent b.invocation start).close = close

/-- How a branch has ended. -/
inductive Fate (ctx : Context) (now : Nat) (b : Branch) : Prop
  | unresolved {e : Registry.NotFound} (hagent : b.agent = .error e)
      (hstatus : b.invocation.status = .failed)
      (hlog : b.session.drafts = [.error b.invocation.author e.message,
        .status b.invocation.author b.invocation.id .failed])
  | gaveUp {agent : Agent} {tick : Nat} {why : Interrupt} (hagent : b.agent = .ok agent)
      (hwhy : ctx.signals.interrupt? tick = some why) (htick : tick ≤ now)
      (hstatus : b.invocation.status = .cancelled) (hstarted : b.invocation.startedAt = none)
      (hfinished : b.invocation.finishedAt = some (.ofTick tick)) (hlog : b.session.drafts = [])
  | closed {agent : Agent} {start tick : Nat} {s : Status} {r : Option Response}
      (hagent : b.agent = .ok agent) (hcalm : ctx.signals.interrupt? start = none)
      (hclose : (Step.trace ctx agent b.invocation start).close = .closed tick s r)
      (htick : tick ≤ now) (hstatus : b.invocation.status = s)
      (hstarted : b.invocation.startedAt = some (.ofTick start))
      (hlog : b.session.drafts =
        (Step.trace ctx agent b.invocation start).drafts.map Prod.snd)
  | crashed {id : String} (hagent : b.agent = .ok .crashing)
      (hstatus : b.invocation.status = .failed)
      (hlog : b.session.drafts = [.status b.invocation.author id .running])

/-- A branch of which nothing has been recorded yet. -/
def Untouched (b : Branch) : Prop :=
  b.Silent ∧ b.invocation.startedAt = none

/-- What can be told of a branch from where it stands. -/
def Standing (ctx : Context) (now : Nat) (b : Branch) : Prop :=
  match b.phase with
  | .fresh => b.Untouched
  | .waiting => b.Untouched ∧ ∃ agent, b.agent = .ok agent
  | .granted => b.Untouched ∧ ∃ agent, b.agent = .ok agent
  | .calling rest close => ∃ agent start, b.Calls ctx now agent start rest close
  | .ended => b.Fate ctx now

variable {ctx : Context} {now : Nat} {b b' : Branch}

/-! ## Each place -/

namespace Standing

theorem untouched (h : b.Standing ctx now)
    (hphase : b.phase = .fresh ∨ b.phase = .waiting ∨ b.phase = .granted) : b.Untouched := by
  unfold Standing at h
  rcases hphase with hphase | hphase | hphase
  · rw [hphase] at h
    exact h
  · rw [hphase] at h
    exact h.1
  · rw [hphase] at h
    exact h.1

theorem resolved (h : b.Standing ctx now) (hphase : b.phase = .waiting) :
    ∃ agent, b.agent = .ok agent := by
  unfold Standing at h
  rw [hphase] at h
  exact h.2

theorem calls {rest : List (Nat × EventDraft)} {close : Close} (h : b.Standing ctx now)
    (hphase : b.phase = .calling rest close) :
    ∃ agent start, b.Calls ctx now agent start rest close := by
  unfold Standing at h
  rw [hphase] at h
  exact h

theorem fate (h : b.Standing ctx now) (hended : b.isEnded = true) : b.Fate ctx now := by
  unfold isEnded at hended
  unfold Standing at h
  cases hphase : b.phase with
  | ended =>
    rw [hphase] at h
    exact h
  | _ =>
    rw [hphase] at hended
    cases hended

/-! ## Time and moves -/

theorem later {tick : Nat} (h : b.Standing ctx now) (hle : now ≤ tick) : b.Standing ctx tick := by
  unfold Standing at h ⊢
  cases hphase : b.phase with
  | fresh | waiting | granted =>
    rw [hphase] at h
    exact h
  | calling rest close =>
    rw [hphase] at h
    obtain ⟨agent, start, hcalls⟩ := h
    exact ⟨agent, start, { hcalls with begun := hcalls.begun.trans hle }⟩
  | ended =>
    rw [hphase] at h
    cases h with
    | unresolved hagent hstatus hlog => exact .unresolved hagent hstatus hlog
    | gaveUp hagent hwhy htick hstatus hstarted hfinished hlog =>
      exact .gaveUp hagent hwhy (htick.trans hle) hstatus hstarted hfinished hlog
    | closed hagent hcalm hclose htick hstatus hstarted hlog =>
      exact .closed hagent hcalm hclose (htick.trans hle) hstatus hstarted hlog
    | crashed hagent hstatus hlog => exact .crashed hagent hstatus hlog

theorem giveUp {agent : Agent} {why : Interrupt} (h : b.Untouched) (hagent : b.agent = .ok agent)
    (hwhy : ctx.signals.interrupt? now = some why) : (b.giveUp now).Standing ctx now := by
  obtain ⟨⟨hlog, hpending⟩, hstarted⟩ := h
  have hopen : b.invocation.status.isTerminal = false := by rw [hpending]; rfl
  refine Fate.gaveUp hagent hwhy (Nat.le_refl now) ?_ ?_ ?_ hlog
  · exact Invocation.status_transition _ _ _ hopen
  · exact (Invocation.startedAt_transition _ _ _ hopen).trans hstarted
  · exact Invocation.finishedAt_transition _ _ _ hopen

theorem fail {e : Registry.NotFound} (h : b.Untouched) (hagent : b.agent = .error e) :
    (b.fail now e).Standing ctx now := by
  obtain ⟨⟨hlog, hpending⟩, -⟩ := h
  refine Fate.unresolved hagent ?_ ?_
  · exact Invocation.status_transition _ _ _ (by rw [hpending]; rfl)
  · simp [Branch.fail, hlog]

theorem begin {agent : Agent} (h : b.Untouched) (hagent : b.agent = .ok agent)
    (hcalm : ctx.signals.interrupt? now = none) : (b.begin ctx agent now).Standing ctx now := by
  obtain ⟨⟨hlog, hpending⟩, -⟩ := h
  have hopen : b.invocation.status.isTerminal = false := by rw [hpending]; rfl
  exact ⟨agent, now,
    { resolved := hagent
      calm := hcalm
      begun := Nat.le_refl now
      running := Invocation.status_transition _ _ _ hopen
      startedAt := Invocation.startedAt_transition _ _ _ hopen
      drafts := ⟨[], by simp [Branch.begin], hlog⟩
      close := by simp [Branch.begin] }⟩

theorem add {tick : Nat} {d : EventDraft} {rest : List (Nat × EventDraft)} {close : Close}
    (h : b.Standing ctx now) (hphase : b.phase = .calling ((tick, d) :: rest) close) :
    Standing ctx now
      { b with session := b.session.append now d, phase := .calling rest close } := by
  obtain ⟨agent, start, hcalls⟩ := h.calls hphase
  obtain ⟨done, htrace, hdone⟩ := hcalls.drafts
  refine ⟨agent, start, { hcalls with drafts := ⟨done ++ [(tick, d)], ?_, ?_⟩ }⟩
  · rw [htrace, List.append_cons]
  · rw [Session.drafts_append, hdone, List.map_append]
    rfl

theorem close {tick : Nat} {s : Status} {r : Option Response} (h : b.Standing ctx now)
    (hphase : b.phase = .calling [] (.closed tick s r)) (htick : tick ≤ now) :
    Standing ctx now
      { b with invocation := b.invocation.transition now s, phase := .ended } := by
  obtain ⟨agent, start, hcalls⟩ := h.calls hphase
  obtain ⟨done, htrace, hdone⟩ := hcalls.drafts
  have hopen : b.invocation.status.isTerminal = false := by rw [hcalls.running]; rfl
  have hs : s ≠ .running := by
    rintro rfl
    cases Call.isTerminal_of_close hcalls.close
  have hclose : (Step.trace ctx agent (b.invocation.transition now s) start).close =
      .closed tick s r := by
    rw [Step.trace_transition]
    exact hcalls.close
  refine Fate.closed hcalls.resolved hcalls.calm hclose htick ?_ ?_ ?_
  · exact Invocation.status_transition _ _ _ hopen
  · rw [Invocation.startedAt_transition _ _ _ hopen, if_neg hs]
    exact hcalls.startedAt
  · rw [Step.trace_transition, htrace, List.append_nil]
    exact hdone

theorem crash {tick count position : Nat} (h : b.Standing ctx now)
    (hphase : b.phase = .calling [] (.crashed tick)) :
    Standing ctx now
      { b with invocation := b.crashRecord count now position, phase := .ended } := by
  obtain ⟨agent, start, hcalls⟩ := h.calls hphase
  obtain ⟨done, htrace, hdone⟩ := hcalls.drafts
  have hagent := Call.eq_crashing_of_close hcalls.close
  subst hagent
  -- all that a crashing agent leaves behind is the report that it is running
  rw [Step.trace, Call.trace, hcalls.calm, List.append_nil] at htrace
  have hlog : b.session.drafts = [.status b.invocation.author b.invocation.id .running] := by
    rw [hdone, ← htrace]
    rfl
  exact Fate.crashed hcalls.resolved rfl hlog

/-- A branch that moves stands where the move brings it. -/
theorem move (h : b.Standing ctx now) (hmove : b.Moves ctx now b') : b'.Standing ctx now := by
  cases hmove with
  | failed hphase hagent => exact fail (h.untouched (Or.inl hphase)) hagent
  | refused hphase hagent hwhy =>
    exact giveUp (h.untouched (hphase.imp_right Or.inr)) hagent hwhy
  | queued hphase hagent => exact ⟨h.untouched (Or.inl hphase), _, hagent⟩
  | granted hphase => exact ⟨h.untouched (Or.inr (Or.inl hphase)), h.resolved hphase⟩
  | left hphase hwhy =>
    obtain ⟨agent, hagent⟩ := h.resolved hphase
    exact giveUp (h.untouched (Or.inr (Or.inl hphase))) hagent hwhy
  | began hphase hagent hcalm => exact begin (h.untouched (hphase.imp_right Or.inr)) hagent hcalm
  | added hphase => exact h.add hphase
  | closed hphase htick => exact h.close hphase htick
  | crashed hphase => exact h.crash hphase

end Standing

/-! ## The branch of a sub-agent -/

/-- The branch of the sub-agent at a position, in the course of a run. -/
structure IsFor (ctx : Context) (registry : Registry) (position : Nat) (r : AgentReference)
    (now : Nat) (b : Branch) : Prop where
  agent : b.agent = registry.resolve r
  reference : b.invocation.agent = r
  session : b.invocation.sessionId = b.session.id
  place : b.session.id = "session-" ++ toString (position + 1)
  numbered : b.session.Numbered
  standing : b.Standing ctx now

variable {registry : Registry} {position : Nat} {r : AgentReference}

theorem isFor_start (ctx : Context) (registry : Registry) (position : Nat) (r : AgentReference) :
    (start registry position r).IsFor ctx registry position r 0 :=
  { agent := rfl
    reference := rfl
    session := rfl
    place := rfl
    numbered := Session.numbered_empty _
    standing := ⟨⟨rfl, rfl⟩, rfl⟩ }

theorem IsFor.move (h : b.IsFor ctx registry position r now) (hmove : b.Moves ctx now b') :
    b'.IsFor ctx registry position r now := by
  have hstanding := h.standing.move hmove
  cases hmove with
  | failed =>
    exact
      { agent := h.agent
        reference := (Invocation.agent_transition _ _ _).trans h.reference
        session := (Invocation.sessionId_transition _ _ _).trans h.session
        place := h.place
        numbered := (h.numbered.append _ _).append _ _
        standing := hstanding }
  | added => exact { h with numbered := h.numbered.append _ _, standing := hstanding }
  | queued | granted => exact { h with standing := hstanding }
  | crashed => exact { h with session := rfl, standing := hstanding }
  | refused | left | began | closed =>
    exact
      { agent := h.agent
        reference := (Invocation.agent_transition _ _ _).trans h.reference
        session := (Invocation.sessionId_transition _ _ _).trans h.session
        place := h.place
        numbered := h.numbered
        standing := hstanding }

end Run.Branch

namespace Run

variable {ctx : Context} {registry : Registry} {workers : Nat} {references : List AgentReference}
  {i : Nat} {r : AgentReference}

/-- However a fleet moves on, every branch stands where its own sub-agent has brought it. -/
theorem Fleet.Reaches.isFor {f : Fleet} {b : Branch}
    (h : Reaches ctx (start registry workers references) f) (hr : references[i]? = some r)
    (hb : f.branches[i]? = some b) : b.IsFor ctx registry i r f.now :=
  h.branch (Q := fun i r now b => b.IsFor ctx registry i r now)
    (fun i r _ => Branch.isFor_start ctx registry i r)
    (fun _ _ _ _ _ hle hb => { hb with standing := hb.standing.later hle })
    (fun _ _ _ _ _ hb hmove => hb.move hmove) hr hb

theorem Fleet.Reaches.length_branches {f : Fleet}
    (h : Reaches ctx (start registry workers references) f) :
    f.branches.length = references.length :=
  (h.length_eq (orderly_start registry workers references)).trans List.length_mapIdx

theorem Fleet.Reaches.exists_branch {f : Fleet}
    (h : Reaches ctx (start registry workers references) f) (hr : references[i]? = some r) :
    ∃ b, f.branches[i]? = some b := by
  have hlt := (List.getElem?_eq_some_iff.mp hr).1
  rw [← h.length_branches] at hlt
  exact ⟨_, List.getElem?_eq_getElem hlt⟩

theorem Fleet.Reaches.exists_reference {f : Fleet} {b : Branch}
    (h : Reaches ctx (start registry workers references) f) (hb : f.branches[i]? = some b) :
    ∃ r, references[i]? = some r := by
  have hlt := (List.getElem?_eq_some_iff.mp hb).1
  rw [h.length_branches] at hlt
  exact ⟨_, List.getElem?_eq_getElem hlt⟩

/-- Every branch is that of some sub-agent. -/
theorem Fleet.Reaches.exists_isFor {f : Fleet} {b : Branch}
    (h : Reaches ctx (start registry workers references) f) (hb : b ∈ f.branches) :
    ∃ i, ∃ r ∈ references, f.branches[i]? = some b ∧ b.IsFor ctx registry i r f.now := by
  obtain ⟨i, hi⟩ := List.getElem?_of_mem hb
  obtain ⟨r, hr⟩ := h.exists_reference hi
  exact ⟨i, r, List.mem_of_getElem? hr, hi, h.isFor hr hi⟩

theorem Fleet.Reaches.standing {f : Fleet} {b : Branch}
    (h : Reaches ctx (start registry workers references) f) (hb : b ∈ f.branches) :
    b.Standing ctx f.now := by
  obtain ⟨i, r, -, -, hfor⟩ := h.exists_isFor hb
  exact hfor.standing

/-- At the end of a run there is a branch for every reference, and it has ended. -/
theorem MayEndWith.exists_branch {o : Outcome}
    (h : MayEndWith ctx registry workers references o) (hr : references[i]? = some r) :
    ∃ b : Branch, o.sessions[i]? = some b.session ∧ o.invocations[i]? = some b.invocation ∧
      b.IsFor ctx registry i r o.tick ∧ b.Fate ctx o.tick := by
  obtain ⟨f, hreach, hended, rfl⟩ := h
  obtain ⟨b, hb⟩ := hreach.exists_branch hr
  have hfor := hreach.isFor hr hb
  have hbended : b.isEnded = true := List.all_eq_true.mp hended b (List.mem_of_getElem? hb)
  refine ⟨b, ?_, ?_, hfor, hfor.standing.fate hbended⟩
  · rw [Fleet.outcome, List.getElem?_map, hb]
    rfl
  · rw [Fleet.outcome, Fleet.invocations, List.getElem?_map, hb]
    rfl

end Run

end Ensemble
