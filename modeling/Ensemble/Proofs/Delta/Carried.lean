import Ensemble.Delta.Reader
import Ensemble.Proofs.Json.Record

/-!
Which JSON values carry a delta.  There are two formats: a record with the fields of the delta, and
a chunk of a chat completion, whose first choice has them.  Both are told by the members that they
must have; a field that holds nothing is missing or null, and every other member, as well as every
further choice, is free.  Either format is read as the delta that it carries.
-/

namespace Ensemble

/-! ## The two formats -/

/-- What lies at the place of a field that may hold nothing. -/
def Json.Holds (found : Option Json) : Option Json → Prop
  | some j => found = some j
  | none => found = none ∨ found = some .null

namespace CallFragment

/-- An entry of a record that carries a fragment. -/
structure InRecord (f : CallFragment) (entry : Json) : Prop where
  index : entry.get? "index" = some (.nat f.index.toNat)
  id : Json.Holds (entry.get? "id") (f.id.map .string)
  name : Json.Holds (entry.get? "name") (f.name.map .string)
  arguments : Json.Holds (entry.get? "arguments") (f.arguments.map .string)

/-- An entry of a chunk that carries a fragment: the name and the arguments are those of its
function. -/
structure InChunk (f : CallFragment) (entry : Json) : Prop where
  index : entry.get? "index" = some (.nat f.index.toNat)
  id : Json.Holds (entry.get? "id") (f.id.map .string)
  name : Json.Holds ((entry.get? "function").bind (Json.get? "name")) (f.name.map .string)
  arguments : Json.Holds ((entry.get? "function").bind (Json.get? "arguments"))
    (f.arguments.map .string)

/-- A list with one entry for each fragment; where there are none it may be missing or null. -/
def Listed (carries : CallFragment → Json → Prop) (found : Option Json) (fs : List CallFragment) :
    Prop :=
  (fs = [] ∧ Json.Holds found none) ∨
    ∃ entries, found = some (.array entries) ∧ List.Forall₂ carries fs entries

end CallFragment

namespace Usage

/-- An object that carries the counters under the given keys. -/
structure Counted (inputKey outputKey : String) (u : Usage) (j : Json) : Prop where
  input : j.get? inputKey = some (.nat u.inputTokens.toNat)
  output : j.get? outputKey = some (.nat u.outputTokens.toNat)

/-- Counters that may be missing or null as a whole. -/
def Reported (inputKey outputKey : String) (found : Option Json) : Option Usage → Prop
  | some u => ∃ j, found = some j ∧ u.Counted inputKey outputKey j
  | none => Json.Holds found none

end Usage

namespace Delta

structure InRecord (d : Delta) (raw : Json) : Prop where
  object : raw.isObject = true
  -- With choices it would be a chunk.
  unchosen : raw.get? "choices" = none
  text : Json.Holds (raw.get? "text") (d.text.map .string)
  toolCalls : CallFragment.Listed CallFragment.InRecord (raw.get? "tool_calls") d.toolCalls
  finishReason : Json.Holds (raw.get? "finish_reason") (d.finishReason.map .string)
  usage : Usage.Reported "input_tokens" "output_tokens" (raw.get? "usage") d.usage

/-- A choice that carries everything of a delta but its usage. -/
structure InChoice (d : Delta) (choice : Json) : Prop where
  text : Json.Holds ((choice.get? "delta").bind (Json.get? "content")) (d.text.map .string)
  toolCalls : CallFragment.Listed CallFragment.InChunk
    ((choice.get? "delta").bind (Json.get? "tool_calls")) d.toolCalls
  finishReason : Json.Holds (choice.get? "finish_reason") (d.finishReason.map .string)

structure InChunk (d : Delta) (raw : Json) : Prop where
  chosen : ∃ choice further,
    raw.get? "choices" = some (.array (choice :: further)) ∧ d.InChoice choice
  usage : Usage.Reported "prompt_tokens" "completion_tokens" (raw.get? "usage") d.usage

end Delta

/-! ## Fields as they are written -/

theorem Json.holds_self (o : Option Json) : Json.Holds o o := by
  cases o with
  | none => exact .inl rfl
  | some j => rfl

theorem CallFragment.listed_list? {carries : CallFragment → Json → Prop}
    {encode : CallFragment → Json} (h : ∀ f, carries f (encode f)) (fs : List CallFragment) :
    Listed carries (Delta.list? encode fs) fs := by
  cases fs with
  | nil => exact .inl ⟨rfl, .inl rfl⟩
  | cons f fs =>
    refine .inr ⟨(f :: fs).map encode, rfl, ?_⟩
    rw [List.forall₂_map_right_iff, List.forall₂_same]
    exact fun f _ => h f

theorem Usage.reported_map {inputKey outputKey : String} {encode : Usage → Json}
    (h : ∀ u : Usage, u.Counted inputKey outputKey (encode u)) (o : Option Usage) :
    Reported inputKey outputKey (o.map encode) o := by
  cases o with
  | none => exact .inl rfl
  | some u => exact ⟨encode u, rfl, h u⟩

/-! ## Reading what is carried -/

theorem Json.bind_string?_of_holds {found : Option Json} {o : Option String}
    (h : Json.Holds found (o.map .string)) : found.bind string? = o := by
  cases o with
  | some s =>
    have hfound : found = some (.string s) := h
    rw [hfound]
    rfl
  | none =>
    rcases h with rfl | rfl
    · rfl
    · rfl

theorem Delta.indexAt_of_nat {entry : Json} {n : UInt32}
    (h : entry.get? "index" = some (.nat n.toNat)) : indexAt ["index"] entry = n := by
  have hlt : n.toNat < UInt32.size := n.toNat_lt
  have hat : at? ["index"] entry = some (.nat n.toNat) := h
  simp [indexAt, hat, Json.nat, Json.unsigned?, hlt]

theorem CallFragment.InRecord.readFragment {f : CallFragment} {entry : Json}
    (h : f.InRecord entry) : Delta.readFragment [] entry = f := by
  have hid : Delta.stringAt? ["id"] entry = f.id := Json.bind_string?_of_holds h.id
  have hname : Delta.stringAt? ["name"] entry = f.name := Json.bind_string?_of_holds h.name
  have harguments : Delta.stringAt? ["arguments"] entry = f.arguments :=
    Json.bind_string?_of_holds h.arguments
  rw [Delta.readFragment, Delta.indexAt_of_nat h.index, hid, List.nil_append, List.nil_append,
    hname, harguments]

theorem CallFragment.InChunk.readFragment {f : CallFragment} {entry : Json}
    (h : f.InChunk entry) : Delta.readFragment ["function"] entry = f := by
  have hid : Delta.stringAt? ["id"] entry = f.id := Json.bind_string?_of_holds h.id
  have hname : Delta.stringAt? ["function", "name"] entry = f.name :=
    Json.bind_string?_of_holds h.name
  have harguments : Delta.stringAt? ["function", "arguments"] entry = f.arguments :=
    Json.bind_string?_of_holds h.arguments
  rw [Delta.readFragment, Delta.indexAt_of_nat h.index, hid, List.singleton_append,
    List.singleton_append, hname, harguments]

theorem CallFragment.Listed.map_eq {carries : CallFragment → Json → Prop}
    {read : Json → CallFragment} (hread : ∀ f entry, carries f entry → read entry = f)
    {found : Option Json} {fs : List CallFragment} (h : Listed carries found fs) :
    ((found.bind Json.items?).getD []).map read = fs := by
  rcases h with ⟨rfl, rfl | rfl⟩ | ⟨entries, rfl, hentries⟩
  · rfl
  · rfl
  · show entries.map read = fs
    induction hentries with
    | nil => rfl
    | cons hentry _ ih => rw [List.map_cons, hread _ _ hentry, ih]

theorem Delta.counterAt_of_nat {j : Json} {key : String} {n : UInt64}
    (h : j.get? key = some (.nat n.toNat)) : counterAt [key] j = n := by
  have hat : at? [key] j = some (.nat n.toNat) := h
  simp [counterAt, hat, Json.nat, Json.unsigned?]

namespace Usage

theorem Reported.chunkUsage {raw : Json} {o : Option Usage}
    (h : Reported "prompt_tokens" "completion_tokens" (raw.get? "usage") o) :
    Delta.chunkUsage raw = o := by
  have hat : Delta.at? ["usage"] raw = raw.get? "usage" := rfl
  rw [Delta.chunkUsage, hat]
  cases o with
  | none =>
    rcases h with h | h
    · rw [h]
    · rw [h]
      rfl
  | some u =>
    obtain ⟨j, hj, hcounted⟩ := h
    rw [hj]
    simp only [Json.isObject_of_get? hcounted.input, Delta.counterAt_of_nat hcounted.input,
      Delta.counterAt_of_nat hcounted.output, reduceIte]

theorem uint64?_toNat (n : UInt64) : (Json.Tree.ofJson (.nat n.toNat)).uint64? = some n := by
  have hbelow : (Json.Tree.ofJson (.nat n.toNat)).below? UInt64.size = some n.toNat := by
    have hlt : (n.toNat : Int) < (UInt64.size : Nat) := Int.ofNat_lt.mpr n.toNat_lt
    rw [Json.nat, Json.Tree.ofJson, Json.Tree.below?, if_pos ⟨Int.natCast_nonneg _, hlt⟩,
      Int.toNat_natCast]
  rw [Json.Tree.uint64?, hbelow, Option.map_some, UInt64.ofNat_toNat]

/-- Counters are decoded from any object that has them, whatever else it has. -/
theorem Counted.ofTree? {u : Usage} {j : Json} (h : u.Counted "input_tokens" "output_tokens" j)
    (hkeys : j.KeysAscend) : Usage.ofTree? (.ofJson j) = some u := by
  have hobject := Json.isObject_of_get? h.input
  obtain ⟨fields, hfields⟩ :=
    Json.exists_ofTree? hobject hkeys ["input_tokens", "output_tokens"]
  have hread {key : String} {n : UInt64} (hkey : key ∈ ["input_tokens", "output_tokens"])
      (hget : j.get? key = some (.nat n.toNat)) :
      fields.withDefault key 0 Json.Tree.uint64? = some n := by
    rw [Json.Fields.withDefault, Json.get?_of_ofTree? hfields hkey,
      Json.field?_of_isObject hobject, hget]
    exact uint64?_toNat n
  rw [Usage.ofTree?, hfields, Option.bind_eq_bind, Option.bind_some, hread (by simp) h.input,
    Option.bind_eq_bind, Option.bind_some, hread (by simp) h.output]
  rfl

theorem Reported.bind_ofTree? {raw : Json} (hkeys : raw.KeysAscend) {o : Option Usage}
    (h : Reported "input_tokens" "output_tokens" (raw.get? "usage") o) :
    (raw.get? "usage").bind (fun usage => ofTree? (.ofJson usage)) = o := by
  cases o with
  | none =>
    rcases h with h | h
    · rw [h]
      rfl
    · rw [h]
      rfl
  | some u =>
    obtain ⟨j, hj, hcounted⟩ := h
    rw [hj]
    exact hcounted.ofTree? (hkeys.of_get? hj)

end Usage

namespace Delta

theorem nonEmpty?_bind_of_ne {o : Option String} (h : o ≠ some "") : o.bind nonEmpty? = o := by
  cases o with
  | none => rfl
  | some s =>
    have hs : s.isEmpty = false := by
      rw [Bool.eq_false_iff]
      intro hempty
      exact h (congrArg some (String.isEmpty_iff.mp hempty))
    rw [Option.bind_some, nonEmpty?, hs, if_neg Bool.false_ne_true]

theorem InChoice.readChunk {d : Delta} {raw choice : Json} (h : d.InChoice choice)
    (husage : chunkUsage raw = d.usage) (htext : d.text ≠ some "") (further : List Json) :
    readChunk raw (.array (choice :: further)) = d := by
  have htext : (stringAt? ["delta", "content"] choice).bind nonEmpty? = d.text := by
    have hcontent : stringAt? ["delta", "content"] choice = d.text :=
      Json.bind_string?_of_holds h.text
    rw [hcontent, nonEmpty?_bind_of_ne htext]
  have hcalls : (itemsAt ["delta", "tool_calls"] choice).map (readFragment ["function"]) =
      d.toolCalls :=
    h.toolCalls.map_eq fun _ _ hentry => hentry.readFragment
  have hfinish : stringAt? ["finish_reason"] choice = d.finishReason :=
    Json.bind_string?_of_holds h.finishReason
  have hfirst : Delta.readChunk raw (.array (choice :: further)) =
      { text := (stringAt? ["delta", "content"] choice).bind nonEmpty?
        toolCalls := (itemsAt ["delta", "tool_calls"] choice).map (readFragment ["function"])
        finishReason := stringAt? ["finish_reason"] choice
        usage := chunkUsage raw } := rfl
  rw [hfirst, htext, hcalls, hfinish, husage]

/-- A chunk is read as the delta that it carries, unless that has an empty text. -/
theorem InChunk.ofJson? {d : Delta} {raw : Json} (h : d.InChunk raw) (htext : d.text ≠ some "") :
    ofJson? raw = .ok d := by
  obtain ⟨choice, further, hchoices, hchoice⟩ := h.chosen
  rw [Delta.ofJson?, if_pos (Json.isObject_of_get? hchoices), hchoices]
  exact congrArg Except.ok (hchoice.readChunk h.usage.chunkUsage htext further)

theorem InRecord.readCanonical {d : Delta} {raw : Json} (h : d.InRecord raw)
    (hkeys : raw.KeysAscend) : readCanonical raw = d := by
  have htext : stringAt? ["text"] raw = d.text := Json.bind_string?_of_holds h.text
  have hcalls : (itemsAt ["tool_calls"] raw).map (readFragment []) = d.toolCalls :=
    h.toolCalls.map_eq fun _ _ hentry => hentry.readFragment
  have hfinish : stringAt? ["finish_reason"] raw = d.finishReason :=
    Json.bind_string?_of_holds h.finishReason
  have husage : (at? ["usage"] raw).bind (fun usage => Usage.ofTree? (.ofJson usage)) = d.usage :=
    h.usage.bind_ofTree? hkeys
  rw [Delta.readCanonical, htext, hcalls, hfinish, husage]

/-- A record is read as the delta that it carries. -/
theorem InRecord.ofJson? {d : Delta} {raw : Json} (h : d.InRecord raw) (hkeys : raw.KeysAscend) :
    ofJson? raw = .ok d := by
  rw [Delta.ofJson?, if_pos h.object, h.unchosen]
  exact congrArg Except.ok (h.readCanonical hkeys)

end Delta

end Ensemble
