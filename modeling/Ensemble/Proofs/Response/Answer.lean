import Ensemble.Proofs.Json.Reader
import Ensemble.Proofs.Ordered
import Ensemble.Proofs.Text.Blank
import Ensemble.Response.Assembly
import Mathlib.Data.List.Dedup
import Mathlib.Data.List.Induction
import Mathlib.Data.List.Sort
import Mathlib.Data.Option.Basic

/-!
What a list of deltas says as a whole, told without taking them one by one: the text is all texts
in a row, a tool call is everything that was said about its position, the last signal counts, and so
does the largest report of each counter.  Assembling the deltas one after the other and closing the
stream gives exactly that.
-/

namespace Ensemble

def CallFragment.isNamed (f : CallFragment) : Bool :=
  (f.id.bind Delta.nonEmpty?).isSome || (f.name.bind Delta.nonEmpty?).isSome

/-- Whether a delta brings text, a fragment of a tool call or a finish signal. -/
def Delta.bringsOutput (d : Delta) : Bool :=
  (d.text.bind Delta.nonEmpty?).isSome || !d.toolCalls.isEmpty ||
    d.finishReason.any fun s => !Text.isBlankText s

namespace Answer

def text (ds : List Delta) : String :=
  String.join (ds.map Delta.chunk)

def fragments (ds : List Delta) : List CallFragment :=
  ds.flatMap Delta.toolCalls

def fragmentsAt (ds : List Delta) (position : UInt32) : List CallFragment :=
  (fragments ds).filter fun f => f.index = position

/-- The positions that any fragment speaks of, each once, in ascending order. -/
def positions (ds : List Delta) : List UInt32 :=
  ((fragments ds).map CallFragment.index).dedup.mergeSort fun i j => decide (i ≤ j)

/-- The first text that is given and not empty, or else the empty text. -/
def firstGiven (texts : List (Option String)) : String :=
  (texts.findSome? fun t => t.bind Delta.nonEmpty?).getD ""

def argumentText (fs : List CallFragment) : String :=
  String.join (fs.map fun f => f.arguments.getD "")

/-- The members of the JSON object that a text writes; a blank text, a text that is no JSON and a
value of another kind count as the empty object. -/
def object (raw : String) : List (String × Json) :=
  if Text.isBlankText raw then []
  else
    match Json.ofText? raw with
    | some (.object members) => members
    | _ => []

/-- The call that fragments make up; without any id and name there is none. -/
def call? (fs : List CallFragment) : Option ToolCall :=
  if fs.any CallFragment.isNamed then
    some { id := firstGiven (fs.map CallFragment.id)
           name := firstGiven (fs.map CallFragment.name)
           arguments := object (argumentText fs) }
  else none

def toolCalls (ds : List Delta) : List ToolCall :=
  (positions ds).filterMap fun i => call? (fragmentsAt ds i)

def signal? (ds : List Delta) : Option String :=
  ((ds.filterMap Delta.finishReason).filter fun s => !Text.isBlankText s).getLast?

def finishReason (ds : List Delta) : Option FinishReason :=
  match signal? ds with
  | some s => FinishReason.classify s
  | none => if (toolCalls ds).isEmpty then none else some .toolCalls

/-- The largest of some counts; without any it is 0. -/
def largest (counts : List UInt64) : UInt64 :=
  counts.max?.getD 0

def usage (ds : List Delta) : Usage :=
  let reports := ds.filterMap Delta.usage
  { inputTokens := largest (reports.map Usage.inputTokens)
    outputTokens := largest (reports.map Usage.outputTokens) }

def response (ds : List Delta) (termination : Termination) : Response :=
  { text := Delta.nonEmpty? (text ds)
    toolCalls := toolCalls ds
    finishReason := finishReason ds
    termination
    usage := usage ds }

/-- The final event of a stream of deltas. -/
def final (author : String) (ds : List Delta) : StreamEnd → EventDraft
  | .completed => .response author (response ds .completed)
  | .cancelled => .response author (response ds .cancelled)
  | .transportError message =>
    if ds.any Delta.bringsOutput then .response author (response ds (.transportError message))
    else .error author message

end Answer

theorem FinishReason.classify_isSome_iff (s : String) :
    (classify s).isSome ↔ Text.isBlankText s = false := by
  have hlower : (lowercase (Text.trim s)).isEmpty = Text.isBlankText s := by
    rw [← Text.isEmpty_trim, Bool.eq_iff_iff, String.isEmpty_iff, String.isEmpty_iff, lowercase,
      ← String.toList_inj, ← String.toList_inj]
    simp
  rw [classify]
  simp only [hlower]
  by_cases h : Text.isBlankText s <;> simp [h]

/-! ## Texts that are given -/

namespace Delta

theorem nonEmpty?_eq_none_iff (s : String) : nonEmpty? s = none ↔ s = "" := by
  rw [nonEmpty?]
  by_cases h : s = "" <;> simp [h]

theorem nonEmpty?_of_ne {s : String} (h : s ≠ "") : nonEmpty? s = some s := by
  rw [nonEmpty?, if_neg (by simpa using h)]

theorem ne_empty_of_nonEmpty? {s t : String} (h : nonEmpty? s = some t) : t ≠ "" := by
  by_cases hs : s = ""
  · rw [(nonEmpty?_eq_none_iff s).mpr hs] at h
    cases h
  · rw [nonEmpty?_of_ne hs, Option.some.injEq] at h
    rw [← h]
    exact hs

end Delta

namespace Answer

theorem firstGiven_eq_empty_iff (texts : List (Option String)) :
    firstGiven texts = "" ↔ ∀ t ∈ texts, t.bind Delta.nonEmpty? = none := by
  rw [firstGiven, ← List.findSome?_eq_none_iff]
  cases hfind : texts.findSome? fun t => t.bind Delta.nonEmpty? with
  | none => simp
  | some s =>
    obtain ⟨t, -, ht⟩ := List.exists_of_findSome?_eq_some hfind
    obtain ⟨u, -, hu⟩ := Option.bind_eq_some_iff.mp ht
    simp [Delta.ne_empty_of_nonEmpty? hu]

theorem firstGiven_concat (texts : List (Option String)) (t : Option String) :
    firstGiven (texts ++ [t]) = PendingCall.fill (firstGiven texts) t := by
  -- one more text counts only if none was given before
  rw [PendingCall.fill, firstGiven, List.findSome?_append]
  cases hfind : texts.findSome? fun t => t.bind Delta.nonEmpty? with
  | some s =>
    obtain ⟨u, -, hu⟩ := List.exists_of_findSome?_eq_some hfind
    obtain ⟨v, -, hv⟩ := Option.bind_eq_some_iff.mp hu
    have hs : s ≠ "" := Delta.ne_empty_of_nonEmpty? hv
    rw [firstGiven, hfind]
    simp [hs]
  | none =>
    rw [firstGiven, hfind]
    cases t with
    | none => rfl
    | some s => by_cases hs : s = "" <;> simp [Delta.nonEmpty?, hs]

end Answer

/-! ## One tool call -/

namespace PendingCall

/-- What fragments, taken in order, leave of a call. -/
def ofFragments (fs : List CallFragment) : PendingCall :=
  fs.foldl merge {}

theorem ofFragments_concat (fs : List CallFragment) (f : CallFragment) :
    ofFragments (fs ++ [f]) = (ofFragments fs).merge f := by
  rw [ofFragments, List.foldl_append]
  rfl

theorem ofFragments_eq (fs : List CallFragment) :
    ofFragments fs =
      { id := Answer.firstGiven (fs.map CallFragment.id)
        name := Answer.firstGiven (fs.map CallFragment.name)
        arguments := Answer.argumentText fs } := by
  induction fs using List.reverseRecOn with
  | nil => rfl
  | append_singleton fs f ih =>
    rw [ofFragments_concat, ih, merge, List.map_append, List.map_append, List.map_singleton,
      List.map_singleton, Answer.firstGiven_concat, Answer.firstGiven_concat, Answer.argumentText,
      Answer.argumentText, List.map_append, String.join_append]
    simp

theorem toToolCall?_ofFragments (fs : List CallFragment) :
    (ofFragments fs).toToolCall? = Answer.call? fs := by
  -- a call is left out exactly when neither an id nor a name was given
  have hnamed : fs.any CallFragment.isNamed = false ↔
      Answer.firstGiven (fs.map CallFragment.id) = "" ∧
        Answer.firstGiven (fs.map CallFragment.name) = "" := by
    rw [Answer.firstGiven_eq_empty_iff, Answer.firstGiven_eq_empty_iff, List.any_eq_false]
    simp [CallFragment.isNamed, forall_and]
  have hobject (raw : String) : ToolCall.readArguments raw = Answer.object raw := by
    rw [ToolCall.readArguments, Answer.object]
    by_cases hblank : Text.isBlankText raw
    · rw [if_pos hblank, Json.ofText?_of_isBlankText hblank]
      rfl
    · rw [if_neg hblank]
      cases Json.ofText? raw with
      | none => rfl
      | some j => cases j <;> rfl
  rw [ofFragments_eq, toToolCall?, Answer.call?, hobject]
  by_cases h : fs.any CallFragment.isNamed
  · have hnot : ¬ (Answer.firstGiven (fs.map CallFragment.id) = "" ∧
        Answer.firstGiven (fs.map CallFragment.name) = "") := by
      rw [← hnamed, h]
      decide
    rw [if_pos h, if_neg (by simpa using hnot)]
  · have hboth := hnamed.mp (Bool.eq_false_iff.mpr h)
    rw [if_neg h, if_pos (by simp [hboth.1, hboth.2])]

end PendingCall

/-! ## The pending calls -/

namespace Assembly

def addFragments (fs : List CallFragment) : List (UInt32 × PendingCall) :=
  fs.foldl addFragment []

theorem addFragments_concat (fs : List CallFragment) (f : CallFragment) :
    addFragments (fs ++ [f]) = addFragment (addFragments fs) f := by
  rw [addFragments, List.foldl_append]
  rfl

theorem sorted_addFragments (fs : List CallFragment) : Ordered.Sorted (addFragments fs) := by
  induction fs using List.reverseRecOn with
  | nil => trivial
  | append_singleton fs f ih =>
    rw [addFragments_concat]
    exact Ordered.sorted_alter _ _ ih

theorem get?_addFragments (fs : List CallFragment) (i : UInt32) :
    Ordered.get? i (addFragments fs) =
      if fs.any fun f => f.index = i then
        some (PendingCall.ofFragments (fs.filter fun f => f.index = i))
      else none := by
  -- induction on the fragments from the right: the last one meets its own position or another one
  induction fs using List.reverseRecOn with
  | nil => rfl
  | append_singleton fs f ih =>
    rw [addFragments_concat, addFragment, Ordered.get?_alter _ _ _ (sorted_addFragments fs),
      List.any_append, List.filter_append]
    by_cases hi : i = f.index
    · rw [if_pos hi, ← hi, ih]
      have hf : [f].filter (fun f => f.index = i) = [f] := by simp [hi]
      have hlast : ([f].any fun f => f.index = i) = true := by simp [hi]
      rw [hf, PendingCall.ofFragments_concat, hlast, Bool.or_true, if_pos (rfl : true = true)]
      -- the position is known already, or this fragment is its first
      by_cases hany : fs.any fun f => f.index = i
      · rw [if_pos hany, Option.getD_some]
      · have hnil : fs.filter (fun f => f.index = i) = [] := by
          rw [List.filter_eq_nil_iff]
          simpa using hany
        rw [if_neg hany, hnil]
        rfl
    · rw [if_neg hi, ih]
      have hf : [f].filter (fun f => f.index = i) = [] := by simp [Ne.symm hi]
      rw [hf, List.append_nil]
      simp [Ne.symm hi]

theorem keys_addFragments (fs : List CallFragment) :
    Ordered.keys (addFragments fs) =
      (fs.map CallFragment.index).dedup.mergeSort fun i j => decide (i ≤ j) := by
  -- both lists increase strictly, so it is enough that they have the same members
  have hsorted := (sorted_addFragments fs).pairwise_keys
  have htrans (a b c : UInt32) : decide (a ≤ b) = true → decide (b ≤ c) = true →
      decide (a ≤ c) = true := by
    intro hab hbc
    exact decide_eq_true (UInt32.le_trans (of_decide_eq_true hab) (of_decide_eq_true hbc))
  have htotal (a b : UInt32) : (decide (a ≤ b) || decide (b ≤ a)) = true := by
    simpa using UInt32.le_total a b
  have hle : ((fs.map CallFragment.index).dedup.mergeSort fun i j => decide (i ≤ j)).Pairwise
      (· ≤ ·) :=
    (List.pairwise_mergeSort htrans htotal _).imp of_decide_eq_true
  have hnodup : ((fs.map CallFragment.index).dedup.mergeSort fun i j => decide (i ≤ j)).Nodup :=
    (List.mergeSort_perm _ _).nodup_iff.mpr (List.nodup_dedup _)
  have hlt : ((fs.map CallFragment.index).dedup.mergeSort fun i j => decide (i ≤ j)).Pairwise
      (· < ·) :=
    (hle.and hnodup).imp fun ⟨hab, hne⟩ => Std.lt_of_le_of_ne hab hne
  refine List.Pairwise.eq_of_mem_iff hsorted hlt fun i => ?_
  rw [← Ordered.get?_isSome_iff, get?_addFragments, List.mem_mergeSort, List.mem_dedup,
    List.mem_map]
  by_cases hany : fs.any fun f => f.index = i
  · rw [if_pos hany]
    simpa using hany
  · rw [if_neg hany]
    simpa using hany

end Assembly

/-! ## The assembly of a list of deltas -/

namespace Assembly

theorem pushAll_concat (a : Assembly) (ds : List Delta) (d : Delta) :
    a.pushAll (ds ++ [d]) = (a.pushAll ds).push d := by
  rw [pushAll, List.foldl_append]
  rfl

def ofDeltas (ds : List Delta) : Assembly :=
  ({} : Assembly).pushAll ds

theorem ofDeltas_concat (ds : List Delta) (d : Delta) :
    ofDeltas (ds ++ [d]) = (ofDeltas ds).push d :=
  pushAll_concat {} ds d

theorem text_ofDeltas (ds : List Delta) : (ofDeltas ds).text = Answer.text ds := by
  induction ds using List.reverseRecOn with
  | nil => rfl
  | append_singleton ds d ih =>
    rw [ofDeltas_concat, push, ih, Answer.text, Answer.text, List.map_append, String.join_append]
    simp

theorem calls_ofDeltas (ds : List Delta) :
    (ofDeltas ds).calls = addFragments (Answer.fragments ds) := by
  induction ds using List.reverseRecOn with
  | nil => rfl
  | append_singleton ds d ih =>
    rw [ofDeltas_concat, push, ih, Answer.fragments, Answer.fragments, List.flatMap_append,
      addFragments, addFragments, List.foldl_append]
    simp

theorem finishSignal_ofDeltas (ds : List Delta) :
    (ofDeltas ds).finishSignal = Answer.signal? ds := by
  induction ds using List.reverseRecOn with
  | nil => rfl
  | append_singleton ds d ih =>
    rw [ofDeltas_concat, push, ih, Answer.signal?, Answer.signal?, List.filterMap_append,
      List.filter_append, List.getLast?_append, Delta.latest]
    cases h : d.finishReason with
    | none => simp [h]
    | some s => by_cases hs : Text.isBlankText s <;> simp [h, hs, notBlank?]

theorem largest_concat (counts : List UInt64) (n : UInt64) :
    Answer.largest (counts ++ [n]) = max (Answer.largest counts) n := by
  cases counts with
  | nil =>
    show n = max 0 n
    rw [UInt64.max_def, if_pos (UInt64.zero_le)]
  | cons m counts =>
    rw [Answer.largest, Answer.largest, List.cons_append, List.max?_cons', List.max?_cons',
      List.foldl_append]
    rfl

theorem usage_ofDeltas (ds : List Delta) : (ofDeltas ds).usage = Answer.usage ds := by
  induction ds using List.reverseRecOn with
  | nil => rfl
  | append_singleton ds d ih =>
    rw [ofDeltas_concat, push, ih, Answer.usage, Answer.usage, maxUsage, List.filterMap_append]
    cases h : d.usage with
    | none =>
      have hzero (n : UInt64) : max n 0 = n := by
        rw [UInt64.max_def]
        by_cases hn : n ≤ 0
        · rw [if_pos hn]
          exact (UInt64.le_zero_iff.mp hn).symm
        · rw [if_neg hn]
      simp [h, hzero]
    | some u => simp [h, largest_concat]

theorem toolCalls_ofDeltas (ds : List Delta) : (ofDeltas ds).toolCalls = Answer.toolCalls ds := by
  -- the pending calls in the order of their positions, each with all of its fragments
  have hcalls := (sorted_addFragments (Answer.fragments ds)).eq_map_keys {}
  rw [keys_addFragments] at hcalls
  rw [toolCalls, calls_ofDeltas, hcalls, List.filterMap_map, Answer.toolCalls, Answer.positions]
  refine List.filterMap_congr fun i hi => ?_
  rw [List.mem_mergeSort, List.mem_dedup, List.mem_map] at hi
  have hany : (Answer.fragments ds).any (fun f => f.index = i) = true := by simpa using hi
  show ((Ordered.get? i (addFragments (Answer.fragments ds))).getD {}).toToolCall? = _
  rw [get?_addFragments, if_pos hany, Option.getD_some, PendingCall.toToolCall?_ofFragments,
    Answer.fragmentsAt]

theorem finishReason_ofDeltas (ds : List Delta) :
    (ofDeltas ds).finishReason = Answer.finishReason ds := by
  rw [finishReason, finishSignal_ofDeltas, toolCalls_ofDeltas, Answer.finishReason]
  cases h : Answer.signal? ds with
  | none => rfl
  | some s =>
    have hs : Text.isBlankText s = false := by
      have hmem := List.mem_of_getLast? h
      simpa using (List.mem_filter.mp hmem).2
    obtain ⟨r, hr⟩ := Option.isSome_iff_exists.mp ((FinishReason.classify_isSome_iff s).mpr hs)
    simp only [Option.bind_some, hr, Option.some_or]

theorem response_ofDeltas (ds : List Delta) (termination : Termination) :
    (ofDeltas ds).response termination = Answer.response ds termination := by
  rw [response, text_ofDeltas, toolCalls_ofDeltas, finishReason_ofDeltas, usage_ofDeltas,
    Answer.response]

theorem isEmpty_foldl_addFragment (calls : List (UInt32 × PendingCall)) (fs : List CallFragment) :
    (fs.foldl addFragment calls).isEmpty = (calls.isEmpty && fs.isEmpty) := by
  induction fs generalizing calls with
  | nil => simp
  | cons f fs ih =>
    have hne : (addFragment calls f).isEmpty = false := by
      rw [List.isEmpty_eq_false_iff]
      exact Ordered.alter_ne_nil _ _ _
    rw [List.foldl_cons, ih, hne]
    simp

theorem hasProgress_push (a : Assembly) (d : Delta) :
    (a.push d).hasProgress = (a.hasProgress || d.bringsOutput) := by
  have htext : (a.text ++ d.chunk).isEmpty =
      (a.text.isEmpty && !(d.text.bind Delta.nonEmpty?).isSome) := by
    rw [Bool.eq_iff_iff, String.isEmpty_iff, String.append_eq_empty_iff, Delta.chunk]
    cases d.text with
    | none => simp
    | some t => by_cases ht : t = "" <;> simp [Delta.nonEmpty?, ht]
  have hsignal : (Delta.latest a.finishSignal (d.finishReason.bind notBlank?)).isSome =
      (a.finishSignal.isSome || d.finishReason.any fun s => !Text.isBlankText s) := by
    rw [Delta.latest, Option.isSome_or, Bool.or_comm]
    cases d.finishReason with
    | none => rfl
    | some s => by_cases hs : Text.isBlankText s <;> simp [notBlank?, hs]
  rw [hasProgress, push, htext, isEmpty_foldl_addFragment, hsignal, hasProgress,
    Delta.bringsOutput]
  cases a.text.isEmpty <;> cases a.calls.isEmpty <;> simp [Bool.or_assoc, Bool.or_left_comm]

theorem hasProgress_ofDeltas (ds : List Delta) :
    (ofDeltas ds).hasProgress = ds.any Delta.bringsOutput := by
  -- something has arrived when some delta brought something
  induction ds using List.reverseRecOn with
  | nil => rfl
  | append_singleton ds d ih =>
    rw [ofDeltas_concat, hasProgress_push, ih, List.any_append]
    simp

theorem any_bringsOutput (ds : List Delta) :
    ds.any Delta.bringsOutput =
      (!(Answer.text ds).isEmpty || !(Answer.fragments ds).isEmpty ||
        (Answer.signal? ds).isSome) := by
  rw [← hasProgress_ofDeltas, hasProgress, text_ofDeltas, calls_ofDeltas, finishSignal_ofDeltas,
    addFragments, isEmpty_foldl_addFragment]
  rfl

end Assembly

/-- Assembling deltas one after the other and closing the stream gives the final event that the list
says as a whole. -/
theorem finish_pushAll (author : String) (ds : List Delta) (how : StreamEnd) :
    (({} : Assembly).pushAll ds).finish author how = Answer.final author ds how := by
  show (Assembly.ofDeltas ds).finish author how = _
  cases how with
  | completed => rw [Assembly.finish, Assembly.response_ofDeltas, Answer.final]
  | cancelled => rw [Assembly.finish, Assembly.response_ofDeltas, Answer.final]
  | transportError message =>
    rw [Assembly.finish, Assembly.hasProgress_ofDeltas, Assembly.response_ofDeltas, Answer.final]

end Ensemble
