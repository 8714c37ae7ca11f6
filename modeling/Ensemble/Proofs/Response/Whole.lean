import Ensemble.Proofs.Response.Answer

/-!
A whole answer in one delta.  Collapsing deltas keeps all of their texts and fragments, but of the
finish signals only the last one that is not empty and of the usage reports only the last one, so
the collapsed delta says the same as the list exactly when these two are the ones that count.
-/

namespace Ensemble

namespace Answer

/-- The last finish signal that is not empty; it may be blank. -/
def lastSignal? (ds : List Delta) : Option String :=
  ((ds.filterMap Delta.finishReason).filter fun s => s ≠ "").getLast?

def lastUsage? (ds : List Delta) : Option Usage :=
  (ds.filterMap Delta.usage).getLast?

/-- The finish reason survives the collapse: no signal counts, or the last one that counts is also
the last one that is not empty, or there are tool calls and that is what it says. -/
def KeepsReason (ds : List Delta) : Prop :=
  ∀ s, signal? ds = some s → lastSignal? ds = some s ∨
    (FinishReason.classify s = some .toolCalls ∧ toolCalls ds ≠ [])

/-- The usage survives the collapse: the last report has the largest counts. -/
def KeepsUsage (ds : List Delta) : Prop :=
  (lastUsage? ds).getD {} = usage ds

/-- What collapsing a list of deltas keeps of it. -/
theorem complete_eq (ds : List Delta) :
    Delta.complete ds =
      { text := Delta.nonEmpty? (text ds)
        toolCalls := fragments ds
        finishReason := lastSignal? ds
        usage := lastUsage? ds } := by
  induction ds using List.reverseRecOn with
  | nil => rfl
  | append_singleton ds d ih =>
    -- the collapse takes in the last delta after all the others
    have hsplit : Delta.complete (ds ++ [d]) = (Delta.complete ds).absorb d := by
      rw [Delta.complete, List.foldl_append]
      rfl
    have htext : (Delta.nonEmpty? (text ds)).getD "" = text ds := by
      by_cases h : text ds = ""
      · rw [h]
        rfl
      · rw [Delta.nonEmpty?_of_ne h, Option.getD_some]
    rw [hsplit, ih, Delta.absorb, Delta.chunk, htext]
    congr 1
    · rw [text, text, List.map_append, String.join_append]
      simp
    · simp [fragments]
    · rw [lastSignal?, lastSignal?, List.filterMap_append, List.filter_append,
        List.getLast?_append, Delta.latest]
      cases h : d.finishReason with
      | none => simp [h]
      | some s => by_cases hs : s = "" <;> simp [h, hs, Delta.nonEmpty?]
    · rw [lastUsage?, lastUsage?, List.filterMap_append, List.getLast?_append, Delta.latest]
      cases h : d.usage <;> simp [h]

theorem text_whole (ds : List Delta) : text [Delta.complete ds] = text ds := by
  rw [complete_eq, text, List.map_singleton, Delta.chunk]
  by_cases h : text ds = ""
  · rw [h]
    rfl
  · rw [Delta.nonEmpty?_of_ne h, Option.getD_some]
    simp

theorem fragments_whole (ds : List Delta) : fragments [Delta.complete ds] = fragments ds := by
  rw [complete_eq]
  simp [fragments]

/-- Nothing but the fragments counts for the tool calls. -/
theorem toolCalls_congr {ds es : List Delta} (h : fragments ds = fragments es) :
    toolCalls ds = toolCalls es := by
  rw [toolCalls, toolCalls, positions, positions, h]
  simp only [fragmentsAt, h]

theorem toolCalls_whole (ds : List Delta) : toolCalls [Delta.complete ds] = toolCalls ds :=
  toolCalls_congr (fragments_whole ds)

theorem usage_whole (ds : List Delta) : usage [Delta.complete ds] = (lastUsage? ds).getD {} := by
  rw [complete_eq, usage]
  cases h : lastUsage? ds with
  | none => rfl
  | some u => rfl

theorem not_blank_of_signal? {ds : List Delta} {s : String} (h : signal? ds = some s) :
    Text.isBlankText s = false := by
  have hmem := List.mem_of_getLast? h
  simpa using (List.mem_filter.mp hmem).2

theorem signal?_of_lastSignal? {ds : List Delta} {s : String} (h : lastSignal? ds = some s)
    (hs : Text.isBlankText s = false) : signal? ds = some s := by
  -- what is not blank is not empty, so the signals that count are among those that are not empty
  obtain ⟨before, hbefore⟩ := List.getLast?_eq_some_iff.mp h
  have hfilter : (ds.filterMap Delta.finishReason).filter (fun s => !Text.isBlankText s) =
      ((ds.filterMap Delta.finishReason).filter fun s => s ≠ "").filter
        fun s => !Text.isBlankText s := by
    rw [List.filter_filter]
    refine List.filter_congr fun t _ => ?_
    by_cases ht : t = ""
    · rw [ht]
      rfl
    · simp [ht]
  rw [signal?, hfilter, hbefore, List.filter_append, List.getLast?_append]
  simp [hs]

theorem signal?_whole (ds : List Delta) :
    signal? [Delta.complete ds] = if lastSignal? ds = signal? ds then signal? ds else none := by
  -- a blank signal hides every earlier one from the collapsed delta
  have hwhole : signal? [Delta.complete ds] = (lastSignal? ds).bind Assembly.notBlank? := by
    rw [complete_eq, signal?]
    cases h : lastSignal? ds with
    | none => rfl
    | some s => by_cases hs : Text.isBlankText s <;> simp [hs, Assembly.notBlank?]
  rw [hwhole]
  cases h : lastSignal? ds with
  | none =>
    split
    · next heq => exact heq
    · rfl
  | some s =>
    rw [Option.bind_some, Assembly.notBlank?]
    by_cases hs : Text.isBlankText s
    · have hne : some s ≠ signal? ds := by
        intro heq
        rw [not_blank_of_signal? heq.symm] at hs
        cases hs
      rw [if_pos hs, if_neg hne]
    · have heq := signal?_of_lastSignal? h (Bool.eq_false_iff.mpr hs)
      rw [if_neg hs, heq, if_pos rfl]

theorem finishReason_whole_iff (ds : List Delta) :
    finishReason [Delta.complete ds] = finishReason ds ↔ KeepsReason ds := by
  rw [finishReason, finishReason, signal?_whole, toolCalls_whole, KeepsReason]
  cases hsignal : signal? ds with
  | none => simp
  | some s =>
    obtain ⟨r, hr⟩ := Option.isSome_iff_exists.mp
      ((FinishReason.classify_isSome_iff s).mpr (not_blank_of_signal? hsignal))
    -- either the collapse keeps the signal, or only the tool calls can give the same reason
    by_cases hlast : lastSignal? ds = some s
    · rw [if_pos hlast]
      exact ⟨fun _ t ht => Or.inl (hlast.trans ht), fun _ => rfl⟩
    · rw [if_neg hlast]
      simp only [Option.some.injEq, forall_eq', hlast, false_or, hr]
      by_cases hcalls : toolCalls ds = []
      · rw [hcalls]
        simp
      · rw [if_neg (by simpa using hcalls), Option.some.injEq]
        exact ⟨fun h => ⟨h.symm, hcalls⟩, fun h => h.1.symm⟩

theorem not_keepsReason {ds : List Delta} (hds : ds.any Delta.bringsOutput = true)
    (hwhole : [Delta.complete ds].any Delta.bringsOutput = false) : ¬ KeepsReason ds := by
  -- all output is a signal that the collapse hides, and it does not say that there are tool calls
  rw [Assembly.any_bringsOutput, text_whole, fragments_whole, Bool.or_eq_false_iff,
    Bool.or_eq_false_iff] at hwhole
  obtain ⟨⟨htext, hfragments⟩, hsignal⟩ := hwhole
  rw [Assembly.any_bringsOutput, htext, hfragments, Bool.or_self, Bool.false_or] at hds
  obtain ⟨s, hs⟩ := Option.isSome_iff_exists.mp hds
  have hcalls : toolCalls ds = [] := by
    have hnil : fragments ds = [] := by simpa using hfragments
    simp [toolCalls, positions, hnil]
  intro hkeeps
  rcases hkeeps s hs with hlast | ⟨-, hne⟩
  · rw [signal?_whole, hlast, hs, if_pos rfl] at hsignal
    cases hsignal
  · exact hne hcalls

theorem response_whole_iff (ds : List Delta) (termination : Termination) :
    response [Delta.complete ds] termination = response ds termination ↔
      KeepsReason ds ∧ KeepsUsage ds := by
  rw [response, response, text_whole, toolCalls_whole, usage_whole, ← finishReason_whole_iff,
    KeepsUsage]
  simp

end Answer

theorem EventDraft.response_inj {author : String} {r s : Response} :
    response author r = response author s ↔ r = s := by
  constructor
  · intro h
    exact EventPayload.response.inj (congrArg EventDraft.payload h)
  · intro h
    rw [h]

/-- A whole answer ends like its deltas exactly when the stream breaks before any output, or the
reason and the usage survive the collapse. -/
theorem Assembly.finish_whole_iff (author : String) (ds : List Delta) (how : StreamEnd) :
    (ofDeltas [Delta.complete ds]).finish author how = (ofDeltas ds).finish author how ↔
      ((∃ message, how = .transportError message) ∧ ds.any Delta.bringsOutput = false) ∨
        (Answer.KeepsReason ds ∧ Answer.KeepsUsage ds) := by
  cases how with
  | completed =>
    rw [finish, finish, response_ofDeltas, response_ofDeltas, EventDraft.response_inj,
      Answer.response_whole_iff]
    simp
  | cancelled =>
    rw [finish, finish, response_ofDeltas, response_ofDeltas, EventDraft.response_inj,
      Answer.response_whole_iff]
    simp
  | transportError message =>
    rw [finish, finish, hasProgress_ofDeltas, hasProgress_ofDeltas, response_ofDeltas,
      response_ofDeltas]
    cases hds : ds.any Delta.bringsOutput with
    | true =>
      cases hwhole : [Delta.complete ds].any Delta.bringsOutput with
      | true =>
        rw [if_pos rfl, if_pos rfl, EventDraft.response_inj, Answer.response_whole_iff]
        simp
      | false =>
        -- the list ends in a response and the whole answer in an error
        have hlost := Answer.not_keepsReason hds hwhole
        rw [if_pos rfl, if_neg (by decide)]
        simp [hlost, EventDraft.response, EventDraft.error]
    | false =>
      -- nothing has arrived, and so nothing has in the collapse
      have hwhole : [Delta.complete ds].any Delta.bringsOutput = false := by
        rw [any_bringsOutput, Bool.or_eq_false_iff, Bool.or_eq_false_iff] at hds
        rw [any_bringsOutput, Answer.text_whole, Answer.fragments_whole, Answer.signal?_whole]
        have hnone : Answer.signal? ds = none := by simpa using hds.2
        rw [hds.1.1, hds.1.2, hnone]
        simp
      rw [hwhole]
      simp

end Ensemble
