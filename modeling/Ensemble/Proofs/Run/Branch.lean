import Ensemble.Proofs.Call.Block
import Ensemble.Proofs.Invocation
import Ensemble.Proofs.Session.Log
import Ensemble.Run.Fleet

/-!
What one branch of a run adds to its own session.  A branch stays silent until it begins its call,
then its session takes the block of the call event by event; nothing that other branches do can
change it.
-/

namespace Ensemble.Run

/-- The log that a branch leaves behind, whose reference names an agent or does not. -/
inductive BranchLog (v : Invocation) : Except Registry.NotFound Agent → List EventDraft → Prop
  | block {agent : Agent} {r : Option Response} {log : List EventDraft}
      (hblock : Block v.author v.id v.status r log) : BranchLog v (.ok agent) log
  | unresolved {e : Registry.NotFound} (hstatus : v.status = .failed) :
      BranchLog v (.error e) [.error v.author e.message, .status v.author v.id .failed]
  | gaveUp {agent : Agent} (hstatus : v.status = .cancelled) : BranchLog v (.ok agent) []

namespace Branch

/-- A branch that has not begun its call. -/
def Silent (b : Branch) : Prop :=
  b.session.drafts = [] ∧ b.invocation.status = .pending

/-- What the session of a branch holds, by where the branch stands. -/
def Recorded (b : Branch) : Prop :=
  match b.phase with
  | .fresh => b.Silent
  | .waiting => b.Silent ∧ ∃ agent, b.agent = .ok agent
  | .granted => b.Silent ∧ ∃ agent, b.agent = .ok agent
  | .calling rest close =>
    b.invocation.status = .running ∧ (∃ agent, b.agent = .ok agent) ∧
      (∀ tick, close ≠ .crashed tick) ∧
      ∀ tick s r, close = .closed tick s r →
        Block b.invocation.author b.invocation.id s r (b.session.drafts ++ rest.map Prod.snd)
  | .ended => BranchLog b.invocation b.agent b.session.drafts

/-- A branch of a sub-agent, in a run in which no agent crashes its task. -/
structure Sound (registry : Registry) (r : AgentReference) (b : Branch) : Prop where
  agent : b.agent = registry.resolve r
  live : b.agent ≠ .ok .crashing
  reference : b.invocation.agent = r
  session : b.invocation.sessionId = b.session.id
  numbered : b.session.Numbered
  recorded : b.Recorded

variable {registry : Registry} {r : AgentReference} {b : Branch} {now : Nat}

theorem sound_start (position : Nat) (hlive : registry.resolve r ≠ .ok .crashing) :
    (start registry position r).Sound registry r :=
  { agent := rfl
    live := hlive
    reference := rfl
    session := rfl
    numbered := Session.numbered_empty _
    recorded := ⟨rfl, rfl⟩ }

theorem Silent.status_transition (h : b.Silent) (s : Status) :
    (b.invocation.transition now s).status = s :=
  Invocation.status_transition _ _ _ (by rw [h.2]; rfl)

namespace Sound

theorem silent_of_fresh (h : b.Sound registry r) (hphase : b.phase = .fresh) : b.Silent := by
  have hrecorded := h.recorded
  unfold Recorded at hrecorded
  rw [hphase] at hrecorded
  exact hrecorded

theorem silent_of_waiting (h : b.Sound registry r) (hphase : b.phase = .waiting) :
    b.Silent ∧ ∃ agent, b.agent = .ok agent := by
  have hrecorded := h.recorded
  unfold Recorded at hrecorded
  rw [hphase] at hrecorded
  exact hrecorded

theorem silent_of_granted (h : b.Sound registry r) (hphase : b.phase = .granted) :
    b.Silent ∧ ∃ agent, b.agent = .ok agent := by
  have hrecorded := h.recorded
  unfold Recorded at hrecorded
  rw [hphase] at hrecorded
  exact hrecorded

theorem queue (h : b.Sound registry r) (hsilent : b.Silent) {agent : Agent}
    (hagent : b.agent = .ok agent) : Sound registry r { b with phase := .waiting } :=
  { h with recorded := ⟨hsilent, agent, hagent⟩ }

theorem grant (h : b.Sound registry r) (hphase : b.phase = .waiting) :
    Sound registry r { b with phase := .granted } :=
  { h with recorded := h.silent_of_waiting hphase }

theorem giveUp (h : b.Sound registry r) (hsilent : b.Silent) {agent : Agent}
    (hagent : b.agent = .ok agent) : Sound registry r (b.giveUp now) := by
  have hlog : BranchLog (b.invocation.transition now .cancelled) b.agent b.session.drafts := by
    rw [hagent, hsilent.1]
    exact .gaveUp (hsilent.status_transition _)
  exact
    { agent := h.agent
      live := h.live
      reference := (Invocation.agent_transition _ _ _).trans h.reference
      session := (Invocation.sessionId_transition _ _ _).trans h.session
      numbered := h.numbered
      recorded := hlog }

theorem fail (h : b.Sound registry r) (hsilent : b.Silent) {e : Registry.NotFound}
    (hagent : b.agent = .error e) : Sound registry r (b.fail now e) := by
  have hlog : BranchLog (b.fail now e).invocation b.agent (b.fail now e).session.drafts := by
    rw [hagent, Branch.fail, Session.drafts_append, Session.drafts_append, hsilent.1]
    rw [← Invocation.author_transition b.invocation now .failed,
      ← Invocation.id_transition b.invocation now .failed]
    exact .unresolved (hsilent.status_transition _)
  exact
    { agent := h.agent
      live := h.live
      reference := (Invocation.agent_transition _ _ _).trans h.reference
      session := (Invocation.sessionId_transition _ _ _).trans h.session
      numbered := (h.numbered.append _ _).append _ _
      recorded := hlog }

theorem begin (h : b.Sound registry r) (hsilent : b.Silent) {agent : Agent}
    (hagent : b.agent = .ok agent) (ctx : Context) :
    Sound registry r (b.begin ctx agent now) := by
  have hlive : agent ≠ .crashing := by
    intro hcrash
    exact h.live (hagent.trans (congrArg _ hcrash))
  -- the whole block is still to come, in a session that is empty
  have hblock (tick : Nat) (s : Status) (response : Option Response)
      (hclose : (Step.trace ctx agent b.invocation now).close = .closed tick s response) :
      Block (b.begin ctx agent now).invocation.author (b.begin ctx agent now).invocation.id s
        response (b.session.drafts ++
          (Step.trace ctx agent b.invocation now).drafts.map Prod.snd) := by
    rw [hsilent.1, List.nil_append, Branch.begin, Invocation.author_transition,
      Invocation.id_transition]
    exact Call.trace_block hlive hclose
  exact
    { agent := h.agent
      live := h.live
      reference := (Invocation.agent_transition _ _ _).trans h.reference
      session := (Invocation.sessionId_transition _ _ _).trans h.session
      numbered := h.numbered
      recorded := ⟨hsilent.status_transition _, ⟨agent, hagent⟩,
        fun _ => Call.close_trace_ne_crashed hlive, hblock⟩ }

theorem take (h : b.Sound registry r) {tick : Nat} {d : EventDraft}
    {rest : List (Nat × EventDraft)} {close : Close}
    (hphase : b.phase = .calling ((tick, d) :: rest) close) :
    Sound registry r
      { b with session := b.session.append now d, phase := .calling rest close } := by
  -- the next event of the call moves from what is to come to what is recorded
  have hrecorded := h.recorded
  unfold Recorded at hrecorded
  rw [hphase] at hrecorded
  obtain ⟨hstatus, hagent, hlive, hblock⟩ := hrecorded
  refine { h with numbered := h.numbered.append _ _, recorded := ⟨hstatus, hagent, hlive, ?_⟩ }
  intro tick' s response hclose
  rw [Session.drafts_append, List.append_assoc]
  exact hblock tick' s response hclose

theorem finish (h : b.Sound registry r) {tick : Nat} {s : Status} {response : Option Response}
    (hphase : b.phase = .calling [] (.closed tick s response)) :
    Sound registry r
      { b with invocation := b.invocation.transition now s, phase := .ended } := by
  have hrecorded := h.recorded
  unfold Recorded at hrecorded
  rw [hphase] at hrecorded
  obtain ⟨hstatus, ⟨agent, hagent⟩, -, hblock⟩ := hrecorded
  -- nothing is left to come, so the session holds the whole block
  have hfinal : (b.invocation.transition now s).status = s :=
    Invocation.status_transition _ _ _ (by rw [hstatus]; rfl)
  have hlog : BranchLog (b.invocation.transition now s) b.agent b.session.drafts := by
    have hdone := hblock tick s response rfl
    rw [List.map_nil, List.append_nil] at hdone
    rw [hagent]
    apply BranchLog.block (r := response)
    rw [Invocation.author_transition, Invocation.id_transition, hfinal]
    exact hdone
  exact
    { agent := h.agent
      live := h.live
      reference := (Invocation.agent_transition _ _ _).trans h.reference
      session := (Invocation.sessionId_transition _ _ _).trans h.session
      numbered := h.numbered
      recorded := hlog }

theorem not_crashed (h : b.Sound registry r) {rest : List (Nat × EventDraft)} {tick : Nat} :
    b.phase ≠ .calling rest (.crashed tick) := by
  intro hphase
  have hrecorded := h.recorded
  unfold Recorded at hrecorded
  rw [hphase] at hrecorded
  exact hrecorded.2.2.1 tick rfl

theorem log_of_ended (h : b.Sound registry r) (hended : b.isEnded = true) :
    BranchLog b.invocation (registry.resolve r) b.session.drafts := by
  have hrecorded := h.recorded
  unfold Recorded at hrecorded
  unfold isEnded at hended
  cases hphase : b.phase with
  | ended =>
    rw [hphase, h.agent] at hrecorded
    exact hrecorded
  | _ =>
    rw [hphase] at hended
    cases hended

end Sound

end Branch

end Ensemble.Run
