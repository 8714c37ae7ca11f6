import Ensemble.Proofs.Response.Whole
import Ensemble.StopRule

/-!
Deltas that arrive in groups.  Whatever can be told of a list of deltas part by part, and of each
part by what it collapses into, is the same for the list and for its collapsed groups: so are the
collapse of the whole and the text and the tool calls of the response.
-/

namespace Ensemble

namespace Answer

/-! ## What can be told part by part -/

theorem regrouped {β : Type} {told : List Delta → β} {join : β → β → β}
    (happend : ∀ ds es, told (ds ++ es) = join (told ds) (told es))
    (hwhole : ∀ ds, told [Delta.complete ds] = told ds) (groups : List (List Delta)) :
    told (groups.map Delta.complete) = told groups.flatten := by
  induction groups with
  | nil => rfl
  | cons group groups ih =>
    calc told (Delta.complete group :: groups.map Delta.complete)
        = join (told [Delta.complete group]) (told (groups.map Delta.complete)) :=
          happend [Delta.complete group] _
      _ = join (told group) (told groups.flatten) := by rw [hwhole, ih]
      _ = told (group ++ groups.flatten) := (happend group _).symm

theorem text_append (ds es : List Delta) : text (ds ++ es) = text ds ++ text es := by
  rw [text, List.map_append, String.join_append, text, text]

theorem fragments_append (ds es : List Delta) :
    fragments (ds ++ es) = fragments ds ++ fragments es :=
  List.flatMap_append

theorem lastSignal?_append (ds es : List Delta) :
    lastSignal? (ds ++ es) = Delta.latest (lastSignal? ds) (lastSignal? es) := by
  rw [lastSignal?, List.filterMap_append, List.filter_append, List.getLast?_append, Delta.latest,
    lastSignal?, lastSignal?]

theorem lastUsage?_append (ds es : List Delta) :
    lastUsage? (ds ++ es) = Delta.latest (lastUsage? ds) (lastUsage? es) := by
  rw [lastUsage?, List.filterMap_append, List.getLast?_append, Delta.latest, lastUsage?,
    lastUsage?]

theorem lastSignal?_whole (ds : List Delta) : lastSignal? [Delta.complete ds] = lastSignal? ds := by
  -- the signal that the collapse keeps is not empty
  rw [complete_eq, lastSignal?]
  cases h : lastSignal? ds with
  | none => rfl
  | some s =>
    have hs : s ≠ "" := by simpa using (List.mem_filter.mp (List.mem_of_getLast? h)).2
    simp [hs]

theorem lastUsage?_whole (ds : List Delta) : lastUsage? [Delta.complete ds] = lastUsage? ds := by
  rw [complete_eq, lastUsage?]
  cases lastUsage? ds <;> rfl

theorem text_regrouped (groups : List (List Delta)) :
    text (groups.map Delta.complete) = text groups.flatten :=
  regrouped text_append text_whole groups

theorem fragments_regrouped (groups : List (List Delta)) :
    fragments (groups.map Delta.complete) = fragments groups.flatten :=
  regrouped fragments_append fragments_whole groups

theorem toolCalls_regrouped (groups : List (List Delta)) :
    toolCalls (groups.map Delta.complete) = toolCalls groups.flatten :=
  toolCalls_congr (fragments_regrouped groups)

theorem complete_regrouped (groups : List (List Delta)) :
    Delta.complete (groups.map Delta.complete) = Delta.complete groups.flatten := by
  rw [complete_eq, complete_eq, text_regrouped, fragments_regrouped,
    regrouped lastSignal?_append lastSignal?_whole, regrouped lastUsage?_append lastUsage?_whole]

end Answer

/-! ## What a loop is asked -/

/-- A rule that looks at nothing but the text and the tool calls; of all rules only a custom one can
look at more. -/
def StopRule.ReadsOutput : StopRule → Prop
  | .custom recognises =>
    ∀ r s : Response, r.text = s.text → r.toolCalls = s.toolCalls → recognises r = recognises s
  | _ => True

theorem StopRule.ReadsOutput.stops_congr {rule : StopRule} (h : rule.ReadsOutput) {r s : Response}
    (htext : r.text = s.text) (hcalls : r.toolCalls = s.toolCalls) :
    rule.stops r = rule.stops s := by
  cases rule with
  | never => rfl
  | signal toolName textMarker => simp only [stops, callsTool, isMarked, htext, hcalls]
  | custom recognises => exact h r s htext hcalls

theorem Assembly.finish_unbroken {how : StreamEnd} (h : how = .completed ∨ how = .cancelled)
    (author : String) (ds : List Delta) :
    ∃ r, (({} : Assembly).pushAll ds).finish author how = .response author r ∧
      r.text = Delta.nonEmpty? (Answer.text ds) ∧ r.toolCalls = Answer.toolCalls ds := by
  rw [finish_pushAll]
  rcases h with rfl | rfl
  · exact ⟨_, rfl, rfl, rfl⟩
  · exact ⟨_, rfl, rfl, rfl⟩

/-- Collapsing the groups of a list one by one changes neither what all of it collapses into nor,
unless the stream breaks, the text and the tool calls of the response; so a loop is asked to stop by
both responses or by none. -/
theorem regrouping_loses_nothing (groups : List (List Delta)) :
    Delta.complete (groups.map Delta.complete) = Delta.complete groups.flatten ∧
      ∀ author how, how = .completed ∨ how = .cancelled →
        ∃ grouped single,
          (({} : Assembly).pushAll (groups.map Delta.complete)).finish author how =
            .response author grouped ∧
          (({} : Assembly).pushAll groups.flatten).finish author how = .response author single ∧
          grouped.text = single.text ∧ grouped.toolCalls = single.toolCalls ∧
          ∀ rule : StopRule, rule.ReadsOutput → rule.stops grouped = rule.stops single := by
  refine ⟨Answer.complete_regrouped groups, fun author how hhow => ?_⟩
  obtain ⟨grouped, hgrouped, htext, hcalls⟩ :=
    Assembly.finish_unbroken hhow author (groups.map Delta.complete)
  obtain ⟨single, hsingle, htext', hcalls'⟩ :=
    Assembly.finish_unbroken hhow author groups.flatten
  have hsameText : grouped.text = single.text := by rw [htext, htext', Answer.text_regrouped]
  have hsameCalls : grouped.toolCalls = single.toolCalls := by
    rw [hcalls, hcalls', Answer.toolCalls_regrouped]
  exact ⟨grouped, single, hgrouped, hsingle, hsameText, hsameCalls, fun rule hrule =>
    hrule.stops_congr hsameText hsameCalls⟩

/-- Three groups, one of them empty, that cut a call in two and put a blank finish signal behind the
one that counts; the cancelled response calls the tool and carries the text either way. -/
theorem regrouping_loses_nothing_cut_call :
    let groups : List (List Delta) :=
      [[{ text := some "do"
          toolCalls := [{ index := 1, id := some "", name := some "exit_loop" }] },
          { finishReason := some "length", usage := some ⟨9, 1⟩ }],
        [],
        [{ text := some "ne", finishReason := some " ", usage := some ⟨0, 2⟩ },
          { toolCalls := [{ index := 0, arguments := some "\x7b" },
            { index := 1, id := some "c", name := some "other", arguments := some "\x7b\x7d" }] }]]
    Delta.complete (groups.map Delta.complete) = Delta.complete groups.flatten ∧
      ∃ grouped single,
        (({} : Assembly).pushAll (groups.map Delta.complete)).finish "a" .cancelled =
          .response "a" grouped ∧
        (({} : Assembly).pushAll groups.flatten).finish "a" .cancelled = .response "a" single ∧
        grouped.text = single.text ∧ grouped.toolCalls = single.toolCalls ∧
        StopRule.default.stops grouped = StopRule.default.stops single := by
  intro groups
  obtain ⟨hcomplete, hfinish⟩ := regrouping_loses_nothing groups
  obtain ⟨grouped, single, hgrouped, hsingle, htext, hcalls, hstops⟩ :=
    hfinish "a" .cancelled (.inr rfl)
  exact ⟨hcomplete, grouped, single, hgrouped, hsingle, htext, hcalls,
    hstops StopRule.default trivial⟩

end Ensemble
