import Ensemble.Proofs.Json.Written
import Ensemble.Proofs.Response.Answer

/-!
Arguments of a tool call that arrive in pieces.  Wherever the text of an object was cut, and
whatever arrived between the pieces, the call is made with the object itself; the calls of other
positions stand around it in the order of their positions.
-/

namespace Ensemble

namespace Answer

/-! ## Calls around a position -/

/-- The calls of some positions, in the order of these. -/
def callsAt (ds : List Delta) (positions : List UInt32) : List ToolCall :=
  positions.filterMap fun i => call? (fragmentsAt ds i)

def below (position : UInt32) (positions : List UInt32) : List UInt32 :=
  positions.filter fun i => i < position

def above (position : UInt32) (positions : List UInt32) : List UInt32 :=
  positions.filter fun i => position < i

theorem below_append_above {positions : List UInt32} {i : UInt32}
    (hpositions : positions.Pairwise (· < ·)) (hi : i ∈ positions) :
    below i positions ++ i :: above i positions = positions := by
  induction positions with
  | nil => cases hi
  | cons j positions ih =>
    have hlt : ∀ k ∈ positions, j < k := fun k hk => List.rel_of_pairwise_cons hpositions hk
    rcases List.mem_cons.mp hi with rfl | hi
    · -- the position comes first: nothing is below it, and everything else is above
      have hbelow : below i positions = [] := by
        rw [below, List.filter_eq_nil_iff]
        intro k hk
        simpa using UInt32.le_of_lt (hlt k hk)
      have habove : above i positions = positions := by
        rw [above, List.filter_eq_self]
        intro k hk
        simpa using hlt k hk
      rw [below] at hbelow
      rw [above] at habove
      simp [below, above, hbelow, habove]
    · have hji : j < i := hlt i hi
      have hrest := ih hpositions.of_cons hi
      rw [below, above] at hrest
      simp [below, above, hji, UInt32.lt_asymm hji, hrest]

theorem pairwise_positions (ds : List Delta) : (positions ds).Pairwise (· < ·) := by
  rw [positions, ← Assembly.keys_addFragments]
  exact (Assembly.sorted_addFragments _).pairwise_keys

theorem mem_positions {ds : List Delta} {f : CallFragment} {i : UInt32}
    (hf : f ∈ fragmentsAt ds i) : i ∈ positions ds := by
  obtain ⟨hmem, hindex⟩ := List.mem_filter.mp hf
  rw [positions, List.mem_mergeSort, List.mem_dedup, ← of_decide_eq_true hindex]
  exact List.mem_map_of_mem hmem

/-- A call stands between the calls of lower and those of higher positions. -/
theorem toolCalls_eq_append {ds : List Delta} {i : UInt32} {call : ToolCall}
    (hcall : call? (fragmentsAt ds i) = some call) :
    toolCalls ds =
      callsAt ds (below i (positions ds)) ++ call :: callsAt ds (above i (positions ds)) := by
  have hmem : i ∈ positions ds := by
    rw [call?] at hcall
    split at hcall
    · next hany =>
      obtain ⟨f, hf, -⟩ := List.any_eq_true.mp hany
      exact mem_positions hf
    · cases hcall
  rw [toolCalls, ← below_append_above (pairwise_positions ds) hmem, List.filterMap_append,
    List.filterMap_cons, hcall, below_append_above (pairwise_positions ds) hmem]
  rfl

/-! ## Arguments in pieces -/

theorem argumentText_eq_join (fs : List CallFragment) :
    argumentText fs = String.join (fs.filterMap CallFragment.arguments) := by
  induction fs with
  | nil => rfl
  | cons f fs ih =>
    rw [argumentText] at ih
    rw [argumentText, List.map_cons, List.filterMap_cons]
    cases f.arguments <;> simp [ih]

theorem object_of_ofText? {raw : String} {members : List (String × Json)}
    (h : Json.ofText? raw = some (.object members)) : object raw = members := by
  have hblank : ¬ Text.isBlankText raw := by
    intro hblank
    rw [Json.ofText?_of_isBlankText hblank] at h
    cases h
  rw [object, if_neg hblank, h]

/-- The object whose text was cut is the object that the pieces denote. -/
theorem object_join {members : List (String × Json)} (hcanonical : (Json.object members).Canonical)
    (hplain : (Json.object members).Plain Json.nestingLimit) {pieces : List String}
    (hpieces : String.join pieces = (Json.object members).toText) :
    object (String.join pieces) = members := by
  apply object_of_ofText?
  rw [hpieces, Json.toText]
  exact Json.ofText?_write hplain (Json.Tree.says_self hcanonical)

end Answer

theorem Assembly.finish_of_bringsOutput {ds : List Delta} (h : ds.any Delta.bringsOutput = true)
    (author : String) (how : StreamEnd) :
    ∃ r, (ofDeltas ds).finish author how = .response author r ∧
      r.toolCalls = Answer.toolCalls ds := by
  cases how with
  | completed => exact ⟨_, rfl, toolCalls_ofDeltas ds⟩
  | cancelled => exact ⟨_, rfl, toolCalls_ofDeltas ds⟩
  | transportError message =>
    rw [← hasProgress_ofDeltas] at h
    rw [finish, if_pos h]
    exact ⟨_, rfl, toolCalls_ofDeltas ds⟩

/-- The text of an object of whole numbers that is nested no deeper than a reader allows, cut into
any pieces, which arrive in order as the arguments of one position among whatever else arrives: as
soon as the position has an id or a name, its call is made with the object. -/
theorem toolCall_of_pieces {members : List (String × Json)}
    (hcanonical : (Json.object members).Canonical)
    (hwhole : (Json.object members).wholeNumbers = true)
    (hdepth : (Json.object members).depth ≤ 127) {pieces : List String}
    (hpieces : String.join pieces = (Json.object members).toText) {ds : List Delta} {i : UInt32}
    (harrived : (Answer.fragmentsAt ds i).filterMap CallFragment.arguments = pieces)
    (hnamed : (Answer.fragmentsAt ds i).any CallFragment.isNamed = true) (author : String)
    (how : StreamEnd) :
    ∃ r call, (({} : Assembly).pushAll ds).finish author how = .response author r ∧
      r.toolCalls =
        Answer.callsAt ds (Answer.below i (Answer.positions ds)) ++ call ::
          Answer.callsAt ds (Answer.above i (Answer.positions ds)) ∧
      call.arguments = members ∧
      call.id = Answer.firstGiven ((Answer.fragmentsAt ds i).map CallFragment.id) ∧
      call.name = Answer.firstGiven ((Answer.fragmentsAt ds i).map CallFragment.name) := by
  have harguments : Answer.object (Answer.argumentText (Answer.fragmentsAt ds i)) = members := by
    rw [Answer.argumentText_eq_join, harrived]
    exact Answer.object_join hcanonical ⟨hwhole, hdepth⟩ hpieces
  have hcall : Answer.call? (Answer.fragmentsAt ds i) =
      some { id := Answer.firstGiven ((Answer.fragmentsAt ds i).map CallFragment.id)
             name := Answer.firstGiven ((Answer.fragmentsAt ds i).map CallFragment.name)
             arguments := members } := by
    rw [Answer.call?, if_pos hnamed, harguments]
  -- a fragment has arrived, so that the stream ends with a response however it ends
  have hbrings : ds.any Delta.bringsOutput = true := by
    obtain ⟨f, hf, -⟩ := List.any_eq_true.mp hnamed
    have hne := List.ne_nil_of_mem (List.mem_filter.mp hf).1
    rw [Assembly.any_bringsOutput]
    simp [hne]
  obtain ⟨r, hfinish, hcalls⟩ := Assembly.finish_of_bringsOutput hbrings author how
  rw [Answer.toolCalls_eq_append hcall] at hcalls
  exact ⟨r, _, hfinish, hcalls, rfl, rfl, rfl⟩

/-- An object with an escaped key, a line break and the smallest number of 64 bits. -/
def Answer.lookup : List (String × Json) :=
  [("\x01\"", .string "a\nb"), ("n", .array [.number (.int (-9223372036854775808)), .object []])]

theorem Answer.canonical_lookup : (Json.object lookup).Canonical := by
  have hsorted : Ordered.Sorted lookup :=
    Ordered.sorted_of_pairwise_keys (by decide : ["\x01\"", "n"].Pairwise (· < ·))
  have hrange : Json.Number.inRange (-9223372036854775808) = true := by decide
  refine ⟨hsorted, ?_⟩
  simp [lookup, Json.Canonical, Json.CanonicalMembers, Json.CanonicalItems, Ordered.Sorted, hrange]

/-- The text of the object, cut inside escapes and inside the number, in an answer that speaks of
three positions; the name comes late and the id is empty. -/
def Answer.scattered : List Delta :=
  [{ text := some "Hi", toolCalls := [{ index := 7, arguments := some "" }] },
   { toolCalls := [{ index := 7, arguments := some "\x7b\"\\u00" },
                   { index := 3, id := some "c3", arguments := some "\x7b" }] },
   { toolCalls := [{ index := 9, name := some "late" }, { index := 7, arguments := some "01\\" }],
     usage := some { inputTokens := 5 } },
   { text := some "!", finishReason := some "length",
     toolCalls := [{ index := 7, id := some "", arguments := some "\"\":\"a\\" }] },
   { toolCalls := [{ index := 7, name := some "lookup", arguments := some "nb\",\"n\":[-92233" },
                   { index := 7, arguments := some "72036854775808,\x7b\x7d]\x7d" }] }]

theorem toolCall_of_pieces_scattered :
    ∃ r call, (({} : Assembly).pushAll Answer.scattered).finish "writer" .cancelled =
      .response "writer" r ∧ call ∈ r.toolCalls ∧ call.arguments = Answer.lookup ∧
      call.name = "lookup" := by
  obtain ⟨r, call, hfinish, hcalls, harguments, -, hname⟩ :=
    @toolCall_of_pieces Answer.lookup Answer.canonical_lookup (by decide +kernel)
      (by decide +kernel) ["", "\x7b\"\\u00", "01\\", "\"\":\"a\\", "nb\",\"n\":[-92233",
        "72036854775808,\x7b\x7d]\x7d"]
      (by decide +kernel) Answer.scattered 7 (by decide +kernel) (by decide +kernel) "writer"
      .cancelled
  refine ⟨r, call, hfinish, ?_, harguments, ?_⟩
  · rw [hcalls]
    simp
  · rw [hname]
    decide +kernel

end Ensemble
