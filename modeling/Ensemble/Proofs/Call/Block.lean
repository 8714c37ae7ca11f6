import Ensemble.Call
import Ensemble.Proofs.Clock
import Ensemble.Proofs.Response.Answer

/-!
The events that one call adds to its log come in a block: the call is running, then its texts are
shown live, then one final event holds everything, and then its final status is reported.
-/

namespace Ensemble

/-- The block of an invocation that ends with a status and, unless it failed, with a response. -/
inductive Block (author id : String) : Status → Option Response → List EventDraft → Prop
  | answered {texts : List String} {r : Response} {s : Status} (hgiven : ∀ t ∈ texts, t ≠ "")
      (htext : r.text = if texts = [] then none else some (String.join texts))
      (hterminal : s.isTerminal) :
      Block author id s (some r)
        (.status author id .running :: texts.map (.partialText author) ++
          [.response author r, .status author id s])
  | failed {message : String} :
      Block author id .failed none
        [.status author id .running, .error author message, .status author id .failed]

theorem Block.isTerminal {author id : String} {s : Status} {r : Option Response}
    {ds : List EventDraft} (h : Block author id s r ds) : s.isTerminal := by
  cases h with
  | answered _ _ hterminal => exact hterminal
  | failed => rfl

namespace Call

/-- The texts that are shown live. -/
def liveTexts (ds : List Delta) : List String :=
  ds.filterMap fun d => Delta.nonEmpty? d.chunk

theorem ne_empty_of_mem_liveTexts {ds : List Delta} {t : String} (h : t ∈ liveTexts ds) :
    t ≠ "" := by
  obtain ⟨d, -, hd⟩ := List.mem_filterMap.mp h
  exact Delta.ne_empty_of_nonEmpty? hd

theorem join_liveTexts (ds : List Delta) : String.join (liveTexts ds) = Answer.text ds := by
  induction ds with
  | nil => rfl
  | cons d ds ih =>
    rw [liveTexts, List.filterMap_cons, Answer.text, List.map_cons, String.join_cons,
      ← Answer.text, ← ih]
    -- an empty text is not shown, and it adds nothing to the whole
    by_cases hd : d.chunk = ""
    · rw [(Delta.nonEmpty?_eq_none_iff d.chunk).mpr hd, hd, String.empty_append]
      rfl
    · rw [Delta.nonEmpty?_of_ne hd]
      exact String.join_cons

theorem text_eq_empty_iff (ds : List Delta) : Answer.text ds = "" ↔ liveTexts ds = [] := by
  constructor
  · intro h
    cases hlive : liveTexts ds with
    | nil => rfl
    | cons t ts =>
      rw [← join_liveTexts, hlive, String.join_cons, String.append_eq_empty_iff] at h
      have hmem : t ∈ liveTexts ds := by rw [hlive]; exact List.mem_cons_self
      exact absurd h.1 (ne_empty_of_mem_liveTexts hmem)
  · intro h
    rw [← join_liveTexts, h]
    rfl

theorem nonEmpty?_text (ds : List Delta) :
    Delta.nonEmpty? (Answer.text ds) =
      if liveTexts ds = [] then none else some (String.join (liveTexts ds)) := by
  rw [join_liveTexts]
  by_cases h : liveTexts ds = []
  · rw [if_pos h, Delta.nonEmpty?_eq_none_iff, text_eq_empty_iff]
    exact h
  · rw [if_neg h, Delta.nonEmpty?_of_ne]
    rw [ne_eq, text_eq_empty_iff]
    exact h

theorem drafts_partialDrafts (author : String) (arrived : List (Nat × Delta)) :
    (partialDrafts author arrived).map Prod.snd =
      (liveTexts (arrived.map Prod.snd)).map (.partialText author) := by
  induction arrived with
  | nil => rfl
  | cons a arrived ih =>
    rw [partialDrafts, List.filterMap_cons, List.map_cons, liveTexts, List.filterMap_cons,
      Delta.partialEvent?]
    cases Delta.nonEmpty? a.2.chunk with
    | none => exact ih
    | some t => exact congrArg (.partialText author t :: ·) ih

/-- Deltas end in a response, or in an error when none of them has shown anything. -/
theorem finalDraft_cases (author : String) (arrived : List (Nat × Delta)) (how : StreamEnd) :
    (∃ termination, finalDraft author arrived how =
      .response author (Answer.response (arrived.map Prod.snd) termination)) ∨
    (∃ message, finalDraft author arrived how = .error author message ∧
      liveTexts (arrived.map Prod.snd) = []) := by
  have hfinal : finalDraft author arrived how =
      (Assembly.ofDeltas (arrived.map Prod.snd)).finish author how := rfl
  rw [hfinal]
  cases how with
  | completed => exact Or.inl ⟨.completed, by rw [Assembly.finish, Assembly.response_ofDeltas]⟩
  | cancelled => exact Or.inl ⟨.cancelled, by rw [Assembly.finish, Assembly.response_ofDeltas]⟩
  | transportError message =>
    rw [Assembly.finish, Assembly.response_ofDeltas]
    by_cases hprogress : (Assembly.ofDeltas (arrived.map Prod.snd)).hasProgress
    · rw [if_pos hprogress]
      exact Or.inl ⟨_, rfl⟩
    · rw [if_neg hprogress]
      rw [Assembly.hasProgress_ofDeltas, Assembly.any_bringsOutput] at hprogress
      -- no progress means in particular that there is no text
      have htext : Answer.text (arrived.map Prod.snd) = "" := by
        simp only [Bool.or_eq_true, not_or, Bool.not_eq_true, Bool.not_eq_false',
          String.isEmpty_iff] at hprogress
        exact hprogress.1.1
      exact Or.inr ⟨message, rfl, (text_eq_empty_iff _).mp htext⟩

theorem finalDraft_cancelled (author : String) (arrived : List (Nat × Delta)) :
    finalDraft author arrived .cancelled =
      .response author (Answer.response (arrived.map Prod.snd) .cancelled) := by
  show (Assembly.ofDeltas (arrived.map Prod.snd)).finish author .cancelled = _
  rw [Assembly.finish, Assembly.response_ofDeltas]

theorem statusOf_response (author : String) (r : Response) :
    statusOf (.response author r) = .succeeded := by
  unfold statusOf EventDraft.response
  by_cases h : r.toolCalls.isEmpty <;> simp [h]

theorem drafts_closing (author id : String) (now tick : Nat) (arrived : List (Nat × Delta))
    (final : EventDraft) (s : Status) :
    (((now, EventDraft.status author id .running) :: partialDrafts author arrived ++
        (closing author id tick final s).1).map Prod.snd) =
      .status author id .running ::
        (liveTexts (arrived.map Prod.snd)).map (.partialText author) ++
          [final, .status author id s] := by
  rw [List.map_append, List.map_cons, drafts_partialDrafts, closing]
  rfl

theorem block_response (author id : String) (ds : List Delta) (termination : Termination)
    {s : Status} (hs : s.isTerminal) :
    Block author id s (some (Answer.response ds termination))
      (.status author id .running :: (liveTexts ds).map (.partialText author) ++
        [.response author (Answer.response ds termination), .status author id s]) :=
  .answered (fun _ => ne_empty_of_mem_liveTexts) (nonEmpty?_text ds) hs

/-- However the deltas of a call end, if they do, its events are a block. -/
theorem traceOf_block {author id : String} {now tick : Nat} {h : Hearing} {called : Bool}
    {s : Status} {r : Option Response}
    (hclose : (traceOf author id now h called).close = .closed tick s r) :
    Block author id s r ((traceOf author id now h called).drafts.map Prod.snd) := by
  obtain ⟨arrived, e⟩ := h
  -- an interrupted call always ends in a response; otherwise the deltas decide
  cases e with
  | ended at_ how =>
    simp only [traceOf, ending, closing, Close.closed.injEq] at hclose
    obtain ⟨rfl, rfl, rfl⟩ := hclose
    simp only [traceOf, ending, drafts_closing]
    rcases finalDraft_cases author arrived how with ⟨termination, hfinal⟩ | ⟨message, hfinal, hlive⟩
    · rw [hfinal, statusOf_response]
      exact block_response author id _ termination rfl
    · rw [hfinal, hlive]
      exact .failed
  | interrupted at_ why =>
    simp only [traceOf, ending, closing, Close.closed.injEq] at hclose
    obtain ⟨rfl, rfl, rfl⟩ := hclose
    simp only [traceOf, ending, drafts_closing, finalDraft_cancelled]
    exact block_response author id _ .cancelled why.isTerminal_status
  | never => cases hclose

theorem close_traceOf_ne_crashed (author id : String) (now tick : Nat) (h : Hearing)
    (called : Bool) : (traceOf author id now h called).close ≠ .crashed tick := by
  obtain ⟨arrived, e⟩ := h
  cases e <;> simp [traceOf, ending, closing]

theorem trace_eq_traceOf {agent : Agent} (hagent : agent ≠ .crashing) (signals : Signals)
    (stream : Bool) (author id : String) (now : Nat) :
    ∃ h called, trace agent signals stream author id now = traceOf author id now h called := by
  -- an interrupt at the start counts as hearing nothing
  unfold trace
  cases signals.interrupt? now with
  | some why => exact ⟨_, _, rfl⟩
  | none =>
    cases agent with
    | replay r => exact ⟨_, _, rfl⟩
    | crashing => exact absurd rfl hagent

variable {agent : Agent} {signals : Signals} {stream : Bool} {author id : String} {now tick : Nat}

theorem trace_block {s : Status} {r : Option Response} (hagent : agent ≠ .crashing)
    (hclose : (trace agent signals stream author id now).close = .closed tick s r) :
    Block author id s r ((trace agent signals stream author id now).drafts.map Prod.snd) := by
  obtain ⟨h, called, htrace⟩ := trace_eq_traceOf hagent signals stream author id now
  rw [htrace] at hclose ⊢
  exact traceOf_block hclose

theorem close_trace_ne_crashed (hagent : agent ≠ .crashing) :
    (trace agent signals stream author id now).close ≠ .crashed tick := by
  obtain ⟨h, called, htrace⟩ := trace_eq_traceOf hagent signals stream author id now
  rw [htrace]
  exact close_traceOf_ne_crashed author id now tick h called

end Call

/-! ## Calls without an end -/

/-- An agent that has nothing more to say at last, but does not let go of its caller. -/
def Agent.hangs : Agent → Bool
  | .replay r => r.rejection.isNone && r.tail = .hang
  | .crashing => false

theorem Tail.ending_eq_never_iff {tail : Tail} {signals : Signals} {now : Nat} :
    tail.ending signals now = .never ↔ tail = .hang ∧ signals = {} := by
  rw [← Signals.first?_eq_none_iff]
  cases tail with
  | complete => simp [ending]
  | transportError message => simp [ending]
  | hang =>
    cases hfirst : signals.first? with
    | none => simp [ending, hfirst]
    | some tick =>
      obtain ⟨why, hwhy⟩ := Option.isSome_iff_exists.mp (Signals.interrupt?_isSome hfirst)
      simp [ending, hfirst, hwhy]

theorem Replay.listen_eq_never_iff {r : Replay} {signals : Signals} {now : Nat}
    {ds : List Delta} :
    (r.listen signals now ds).ending = .never ↔ r.tail = .hang ∧ signals = {} := by
  -- an interrupt on the way would end the call
  induction ds generalizing now with
  | nil => exact Tail.ending_eq_never_iff
  | cons d ds ih =>
    rw [listen]
    cases hfirst : signals.firstBy? (now + r.delay) with
    | none => exact ih
    | some interrupt =>
      refine iff_of_false nofun ?_
      rintro ⟨-, rfl⟩
      cases hfirst

theorem Call.close_traceOf_eq_never_iff {author id : String} {now : Nat} {h : Hearing}
    {called : Bool} : (traceOf author id now h called).close = .never ↔ h.ending = .never := by
  cases hending : h.ending <;> simp [traceOf, ending, closing, hending]

/-- Only a call of an agent that hangs goes on for ever, and only if nothing can interrupt it. -/
theorem Call.close_trace_eq_never_iff {agent : Agent} {signals : Signals} {stream : Bool}
    {author id : String} {now : Nat} :
    (trace agent signals stream author id now).close = .never ↔
      agent.hangs = true ∧ signals = {} := by
  unfold trace
  cases hwhy : signals.interrupt? now with
  | some why =>
    refine (close_traceOf_eq_never_iff.trans (iff_of_false nofun ?_))
    rintro ⟨-, rfl⟩
    cases hwhy
  | none =>
    cases agent with
    | crashing => exact iff_of_false nofun nofun
    | replay r =>
      refine close_traceOf_eq_never_iff.trans ?_
      unfold Replay.call
      cases hrejection : r.rejection with
      | some e => simp [Agent.hangs, hrejection]
      | none =>
        refine Replay.listen_eq_never_iff.trans ?_
        simp [Agent.hangs, hrejection]

end Ensemble
