import Ensemble.Proofs.Call.Block

/-!
The response with which an invocation closed, as it can be read off a log: it stands right before
the report of the final status.
-/

namespace Ensemble

/-- Whether a draft reports a final status of an invocation. -/
def EventDraft.closes (id : String) (d : EventDraft) : Bool :=
  match d.payload with
  | .status i s => i = id && s.isTerminal
  | _ => false

/-- The response right before the report that an invocation is over. -/
def closingResponse? (id : String) : List EventDraft → Option Response
  | d :: e :: rest => if e.closes id then Call.responseOf d else closingResponse? id (e :: rest)
  | _ => none

theorem closingResponse?_append {id : String} {before after : List EventDraft} {d e : EventDraft}
    (hbefore : ∀ x ∈ before, x.closes id = false) (hd : d.closes id = false)
    (he : e.closes id = true) :
    closingResponse? id (before ++ d :: e :: after) = Call.responseOf d := by
  induction before with
  | nil => rw [List.nil_append, closingResponse?, if_pos he]
  | cons x before ih =>
    rw [List.forall_mem_cons] at hbefore
    -- what follows `x` does not close the invocation, be it one of `before` or `d` itself
    cases before with
    | nil =>
      rw [List.singleton_append, closingResponse?, hd, if_neg Bool.false_ne_true, closingResponse?,
        if_pos he]
    | cons y before =>
      rw [List.cons_append, List.cons_append, closingResponse?, hbefore.2 y List.mem_cons_self,
        if_neg Bool.false_ne_true, ← List.cons_append]
      exact ih hbefore.2

theorem closes_status (id : String) (author i : String) (s : Status) :
    (EventDraft.status author i s).closes id = (decide (i = id) && s.isTerminal) := rfl

/-- Only the last event of a block closes an invocation, and the response stands before it. -/
theorem Block.eq_append {author id : String} {s : Status} {r : Option Response}
    {ds : List EventDraft} (h : Block author id s r ds) :
    ∃ before d, ds = before ++ [d, .status author id s] ∧ Call.responseOf d = r ∧
      ∀ x ∈ before ++ [d], ∀ i, x.closes i = false := by
  cases h with
  | @answered texts r s hgiven htext hterminal =>
    refine ⟨_, _, rfl, rfl, ?_⟩
    intro x hx i
    simp only [List.cons_append, List.mem_cons, List.mem_append, List.mem_map, List.not_mem_nil,
      or_false] at hx
    rcases hx with rfl | ⟨t, -, rfl⟩ | rfl
    · rw [closes_status, Status.isTerminal, Bool.and_false]
    · rfl
    · rfl
  | @failed message =>
    refine ⟨[.status author id .running], .error author message, rfl, rfl, ?_⟩
    intro x hx i
    simp only [List.cons_append, List.nil_append, List.mem_cons, List.not_mem_nil, or_false] at hx
    rcases hx with rfl | rfl
    · rw [closes_status, Status.isTerminal, Bool.and_false]
    · rfl

theorem Block.not_closes {author id i : String} {s : Status} {r : Option Response}
    {ds : List EventDraft} (h : Block author id s r ds) (hne : id ≠ i) :
    ∀ x ∈ ds, x.closes i = false := by
  -- the last event closes the invocation of the block, the others none at all
  obtain ⟨before, d, rfl, -, hrest⟩ := h.eq_append
  intro x hx
  rw [List.append_cons, List.mem_append, List.mem_singleton] at hx
  rcases hx with hx | rfl
  · exact hrest x hx i
  · rw [closes_status, decide_eq_false hne, Bool.false_and]

end Ensemble
