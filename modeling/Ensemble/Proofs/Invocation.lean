import Ensemble.Invocation

/-!
What a transition leaves alone: an invocation stays the same attempt of the same sub-agent, and only
its status and its times move.
-/

namespace Ensemble.Invocation

variable (i : Invocation) (now : Nat) (s : Status)

@[simp] theorem id_transition : (i.transition now s).id = i.id := by
  unfold transition
  split <;> rfl

@[simp] theorem agent_transition : (i.transition now s).agent = i.agent := by
  unfold transition
  split <;> rfl

@[simp] theorem author_transition : (i.transition now s).author = i.author := by
  rw [author, agent_transition, author]

@[simp] theorem sessionId_transition : (i.transition now s).sessionId = i.sessionId := by
  unfold transition
  split <;> rfl

@[simp] theorem iteration_transition : (i.transition now s).iteration = i.iteration := by
  unfold transition
  split <;> rfl

theorem status_transition (h : i.status.isTerminal = false) : (i.transition now s).status = s := by
  unfold transition
  rw [h, if_neg Bool.false_ne_true]

theorem startedAt_transition (h : i.status.isTerminal = false) :
    (i.transition now s).startedAt = if s = .running then some (.ofTick now) else i.startedAt := by
  unfold transition
  rw [h, if_neg Bool.false_ne_true]

theorem finishedAt_transition (h : i.status.isTerminal = false) :
    (i.transition now s).finishedAt =
      if s.isTerminal then some (.ofTick now) else i.finishedAt := by
  unfold transition
  rw [h, if_neg Bool.false_ne_true]

end Ensemble.Invocation
