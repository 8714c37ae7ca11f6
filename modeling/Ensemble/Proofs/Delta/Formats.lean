import Ensemble.Proofs.Delta.Written

/-!
The two formats of deltas agree.  Any delta can be written as a record and as a chunk of a chat
completion, and but for an empty text, which a chunk cannot tell from none, it is read from either
one.  Neither format can be got wrong: a line fails only where it holds no JSON object.
-/

namespace Ensemble

/-! ## Deltas as chunks -/

namespace CallFragment

def functionFields (f : CallFragment) : List (String × Option Json) :=
  [("arguments", f.arguments.map .string), ("name", f.name.map .string)]

def chunkFields (f : CallFragment) : List (String × Option Json) :=
  [("function", some (.object (Json.present f.functionFields))), ("id", f.id.map .string),
    ("index", some (.nat f.index.toNat))]

/-- The entry of a chunk that carries a fragment and nothing else. -/
def toChunk (f : CallFragment) : Json :=
  .object (Json.present f.chunkFields)

theorem inChunk_toChunk (f : CallFragment) : f.InChunk f.toChunk := by
  have hget (key : String) : f.toChunk.get? key = (Ordered.get? key f.chunkFields).join :=
    Json.get?_present key (by simp only [chunkFields, List.map]; decide)
  have hfunction (key : String) :
      (f.toChunk.get? "function").bind (Json.get? key) =
        (Ordered.get? key f.functionFields).join := by
    rw [hget]
    exact Json.get?_present key (by simp only [functionFields, List.map]; decide)
  constructor
  case index => simp [hget, chunkFields]
  case id => simp [hget, chunkFields, Json.holds_self]
  case name => simp [hfunction, functionFields, Json.holds_self]
  case arguments => simp [hfunction, functionFields, Json.holds_self]

end CallFragment

/-- The usage as a chunk counts it. -/
def Usage.toChunk (u : Usage) : Json :=
  .object [("completion_tokens", .nat u.outputTokens.toNat),
    ("prompt_tokens", .nat u.inputTokens.toNat)]

theorem Usage.counted_toChunk (u : Usage) :
    u.Counted "prompt_tokens" "completion_tokens" u.toChunk :=
  ⟨rfl, rfl⟩

namespace Delta

def contentFields (d : Delta) : List (String × Option Json) :=
  [("content", d.text.map .string), ("tool_calls", list? CallFragment.toChunk d.toolCalls)]

def choiceFields (d : Delta) : List (String × Option Json) :=
  [("delta", some (.object (Json.present d.contentFields))),
    ("finish_reason", d.finishReason.map .string)]

/-- The only choice of a chunk. -/
def toChoice (d : Delta) : Json :=
  .object (Json.present d.choiceFields)

def chunkFields (d : Delta) : List (String × Option Json) :=
  [("choices", some (.array [d.toChoice])), ("usage", d.usage.map Usage.toChunk)]

/-- The chunk that carries a delta and nothing else. -/
def toChunk (d : Delta) : Json :=
  .object (Json.present d.chunkFields)

theorem inChoice_toChoice (d : Delta) : d.InChoice d.toChoice := by
  have hget (key : String) : d.toChoice.get? key = (Ordered.get? key d.choiceFields).join :=
    Json.get?_present key (by simp only [choiceFields, List.map]; decide)
  have hcontent (key : String) :
      (d.toChoice.get? "delta").bind (Json.get? key) = (Ordered.get? key d.contentFields).join := by
    rw [hget]
    exact Json.get?_present key (by simp only [contentFields, List.map]; decide)
  constructor
  case text => simp [hcontent, contentFields, Json.holds_self]
  case toolCalls =>
    have hcalls : (d.toChoice.get? "delta").bind (Json.get? "tool_calls") =
        list? CallFragment.toChunk d.toolCalls := by
      simp [hcontent, contentFields]
    rw [hcalls]
    exact CallFragment.listed_list? CallFragment.inChunk_toChunk d.toolCalls
  case finishReason => simp [hget, choiceFields, Json.holds_self]

theorem inChunk_toChunk (d : Delta) : d.InChunk d.toChunk := by
  have hget (key : String) : d.toChunk.get? key = (Ordered.get? key d.chunkFields).join :=
    Json.get?_present key (by simp only [chunkFields, List.map]; decide)
  constructor
  case chosen =>
    refine ⟨d.toChoice, [], ?_, d.inChoice_toChoice⟩
    simp [hget, chunkFields]
  case usage =>
    have husage : d.toChunk.get? "usage" = d.usage.map Usage.toChunk := by
      simp [hget, chunkFields]
    rw [husage]
    exact Usage.reported_map Usage.counted_toChunk d.usage

/-! ## What fails -/

/-- Every object is read, whatever its fields hold. -/
theorem exists_ofJson? {raw : Json} (h : raw.isObject = true) : ∃ d, ofJson? raw = .ok d := by
  rw [ofJson?, if_pos h]
  cases raw.get? "choices" with
  | some choices => exact ⟨readChunk raw choices, rfl⟩
  | none => exact ⟨readCanonical raw, rfl⟩

/-- A line is read where it holds an object; otherwise the fault says which of the two it misses. -/
theorem ofLine?_spec (line : String) :
    match Json.ofText? line with
    | none => ofLine? line = .error .notJson
    | some raw =>
      if raw.isObject then ∃ d, ofLine? line = .ok d else ofLine? line = .error .notObject := by
  rw [ofLine?]
  cases Json.ofText? line with
  | none => rfl
  | some raw =>
    show if raw.isObject then ∃ d, ofJson? raw = .ok d else ofJson? raw = .error .notObject
    split
    case isTrue hobject => exact exists_ofJson? hobject
    case isFalse hobject => rw [ofJson?, if_neg hobject]

theorem ofLine?_error_iff (line : String) :
    (∃ fault, ofLine? line = .error fault) ↔
      ∀ raw, Json.ofText? line = some raw → raw.isObject = false := by
  have hspec := ofLine?_spec line
  cases hraw : Json.ofText? line with
  | none =>
    rw [hraw] at hspec
    exact iff_of_true ⟨.notJson, hspec⟩ fun _ h => nomatch h
  | some raw =>
    simp only [hraw] at hspec
    simp only [Option.some.injEq, forall_eq']
    split at hspec
    case isTrue hobject =>
      obtain ⟨d, hd⟩ := hspec
      simp [hd, hobject]
    case isFalse hobject =>
      exact iff_of_true ⟨.notObject, hspec⟩ (by simpa using hobject)

/-- A delta has both formats.  But for an empty text it is read from any chunk and from any record
that carries it, among whatever other members and before whatever further choices; and no line fails
that holds an object. -/
theorem formats_agree :
    (∀ d : Delta, d.InChunk d.toChunk ∧ d.InRecord d.toJson ∧ d.toJson.KeysAscend) ∧
    (∀ (d : Delta) (chunk record : Json), d.text ≠ some "" →
      d.InChunk chunk → d.InRecord record → record.KeysAscend →
        ofJson? chunk = .ok d ∧ ofJson? record = .ok d) ∧
    ∀ line, (∃ fault, ofLine? line = .error fault) ↔
      ∀ raw, Json.ofText? line = some raw → raw.isObject = false := by
  refine ⟨?_, ?_, ofLine?_error_iff⟩
  · exact fun d => ⟨d.inChunk_toChunk, d.inRecord_toJson, d.keysAscend_toJson⟩
  · intro d chunk record htext hchunk hrecord hkeys
    exact ⟨hchunk.ofJson? htext, hrecord.ofJson? hkeys⟩

/-- A call without an id, a finish signal and a usage, each among members that are not read. -/
theorem formats_agree_extended :
    let d : Delta :=
      { toolCalls := [{ index := 2, name := some "ls", arguments := some "[]" }]
        finishReason := some "tool_calls"
        usage := some { inputTokens := 3, outputTokens := 4 } }
    let chunk : Json := .object
      [("choices", .array
        [.object
          [("delta", .object
            [("content", .null), ("role", .string "assistant"),
              ("tool_calls", .array
                [.object
                  [("function", .object
                    [("arguments", .string "[]"), ("name", .string "ls"), ("strict", .bool true)]),
                    ("index", .nat 2), ("type", .string "function")]])]),
            ("finish_reason", .string "tool_calls"), ("index", .nat 0)],
          .object [("delta", .object [("content", .string "unread")])]]),
        ("model", .string "m"),
        ("usage", .object
          [("completion_tokens", .nat 4), ("prompt_tokens", .nat 3), ("total_tokens", .nat 7)])]
    let record : Json := .object
      [("finish_reason", .string "tool_calls"), ("model", .string "m"), ("text", .null),
        ("tool_calls", .array
          [.object
            [("arguments", .string "[]"), ("id", .null), ("index", .nat 2), ("name", .string "ls"),
              ("type", .string "function")]]),
        ("usage", .object
          [("input_tokens", .nat 3), ("output_tokens", .nat 4), ("total_tokens", .nat 7)])]
    (d.text ≠ some "" ∧ d.InChunk chunk ∧ d.InRecord record ∧ record.KeysAscend) ∧
      ofJson? chunk = .ok d ∧ ofJson? record = .ok d := by
  intro d chunk record
  have htext : d.text ≠ some "" := by decide
  have hchunk : d.InChunk chunk :=
    { chosen := ⟨_, _, rfl,
        { text := .inr rfl
          toolCalls := .inr ⟨_, rfl, .cons ⟨rfl, .inl rfl, rfl, rfl⟩ .nil⟩
          finishReason := rfl }⟩
      usage := ⟨_, rfl, ⟨rfl, rfl⟩⟩ }
  have hrecord : d.InRecord record :=
    { object := rfl
      unchosen := rfl
      text := .inr rfl
      toolCalls := .inr ⟨_, rfl, .cons ⟨rfl, .inr rfl, rfl, rfl⟩ .nil⟩
      finishReason := rfl
      usage := ⟨_, rfl, ⟨rfl, rfl⟩⟩ }
  have hkeys : record.KeysAscend := by
    simp only [record, Json.KeysAscend, Json.MembersAscend, Json.ItemsAscend, Json.nat,
      Ordered.Sorted, List.forall_mem_cons, List.not_mem_nil, false_imp_iff, implies_true, and_true]
    decide
  exact ⟨⟨htext, hchunk, hrecord, hkeys⟩,
    formats_agree.2.1 d chunk record htext hchunk hrecord hkeys⟩

end Delta

end Ensemble
