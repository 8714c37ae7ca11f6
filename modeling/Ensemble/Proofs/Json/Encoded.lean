import Ensemble.Delta.Json
import Ensemble.Proofs.Json.Present

/-!
Decoding what was encoded.  A field that was written is found and decoded, one that was left out
gets the value that it was left out for, and the tag of a variant is told from its other members.
-/

namespace Ensemble.Json

open Ensemble.Json.Tree (Says)

/-- What a value is encoded as is decoded as that value. -/
def Returns {α : Type} (decode : Tree → Option α) (encode : α → Json) (a : α) : Prop :=
  decode (.ofJson (encode a)) = some a

theorem returns_string (s : String) : Returns Tree.string? .string s := rfl

theorem returns_bool (b : Bool) : Returns Tree.bool? .bool b := rfl

theorem returns_below {bound n : Nat} (h : n < bound) : Returns (Tree.below? bound) .nat n := by
  have hlt : (n : Int) < bound := Int.ofNat_lt.mpr h
  rw [Returns, nat, Tree.ofJson, Tree.below?, if_pos ⟨Int.natCast_nonneg n, hlt⟩, Int.toNat_natCast]

theorem returns_uint32 (n : UInt32) : Returns Tree.uint32? (fun n => .nat n.toNat) n := by
  rw [Returns, Tree.uint32?, returns_below n.toNat_lt, Option.map_some, UInt32.ofNat_toNat]

theorem returns_uint64 (n : UInt64) : Returns Tree.uint64? (fun n => .nat n.toNat) n := by
  rw [Returns, Tree.uint64?, returns_below n.toNat_lt, Option.map_some, UInt64.ofNat_toNat]

theorem returns_members {members : List (String × Json)} (h : (object members).KeysAscend) :
    Returns Tree.members? .object members := by
  rw [Returns, Tree.members?, Tree.says_of_keysAscend h]
  rfl

section Compound

variable {α : Type} {decode : Tree → Option α} {encode : α → Json}

theorem Returns.nullable {a : α} (h : Returns decode encode a) (hnull : decode .null = none) :
    Returns (Tree.nullable decode) (ofOption encode) (some a) := by
  have hdecode : (decode (.ofJson (encode a))).map some = some (some a) := by
    rw [h, Option.map_some]
  -- `null` would not be decoded
  cases hvalue : Tree.ofJson (encode a) with
  | null =>
    rw [Returns, hvalue, hnull] at h
    cases h
  | _ =>
    rw [hvalue] at hdecode
    rw [Returns, ofOption, hvalue]
    exact hdecode

theorem returns_ofOption {o : Option α} (h : ∀ a ∈ o, Returns decode encode a)
    (hnull : decode .null = none) : Returns (Tree.nullable decode) (ofOption encode) o := by
  cases o with
  | none => rfl
  | some a => exact (h a rfl).nullable hnull

theorem returns_items {as : List α} (h : ∀ a ∈ as, Returns decode encode a) :
    Returns (Tree.listOf decode) (fun as => .array (as.map encode)) as := by
  rw [Returns, Tree.ofJson, Tree.ofItems_eq, Tree.listOf]
  induction as with
  | nil => rfl
  | cons a as ih =>
    obtain ⟨ha, has⟩ := List.forall_mem_cons.mp h
    rw [Returns] at ha
    rw [List.map_cons, List.map_cons, List.mapM_cons, ha, ih has]
    rfl

/-! ## Fields -/

variable {fields : Fields} {name : String}

theorem required_of_field {a : α} (hfield : Ordered.get? name fields = some (.ofJson (encode a)))
    (h : Returns decode encode a) : fields.required name decode = some a := by
  rw [Fields.required, hfield]
  exact h

theorem withDefault_of_field {a fallback : α}
    (hfield : Ordered.get? name fields = some (.ofJson (encode a))) (h : Returns decode encode a) :
    fields.withDefault name fallback decode = some a := by
  rw [Fields.withDefault, hfield]
  exact h

/-- A field that is left out when there is nothing to be written. -/
theorem withDefault_of_option {o : Option α}
    (hfield : Ordered.get? name fields = (o.map encode).map .ofJson)
    (h : ∀ a, Returns decode encode a) (hnull : decode .null = none) :
    fields.withDefault name none (Tree.nullable decode) = some o := by
  rw [Fields.withDefault, hfield]
  cases o with
  | none => rfl
  | some a => exact (h a).nullable hnull

/-- A list that is left out when it is empty. -/
theorem withDefault_of_list? {as : List α}
    (hfield : Ordered.get? name fields = (Delta.list? encode as).map .ofJson)
    (h : ∀ a ∈ as, Returns decode encode a) :
    fields.withDefault name [] (Tree.listOf decode) = some as := by
  rw [Fields.withDefault, hfield]
  cases as with
  | nil => rfl
  | cons a as => exact returns_items h

end Compound

/-- The fields that were written are read. -/
theorem exists_fields (fields : List (String × Option Json)) (h : (fields.map Prod.fst).Nodup)
    (names : List String) :
    ∃ read : Fields, Fields.ofTree? names (.ofJson (.object (present fields))) = some read ∧
      ∀ name ∈ names,
        Ordered.get? name read = (Ordered.get? name fields).join.map .ofJson := by
  have hnodup : (Ordered.keys (present fields)).Nodup := (keys_present_sublist fields).nodup h
  obtain ⟨read, hread⟩ := exists_ofTree?_of_nodup hnodup names
  refine ⟨read, hread, fun name hname => ?_⟩
  rw [get?_of_ofTree? hread hname, field?, get?_present name h]

/-! ## Tags -/

mutual

theorem readable_ofJson (j : Json) : ∃ v, (Tree.ofJson j).toJson? = some v := by
  cases j with
  | array items =>
    obtain ⟨vs, hvs⟩ := readable_ofItems items
    exact ⟨.array vs, by rw [Tree.ofJson, Tree.toJson?, hvs, Option.map_some]⟩
  | object members =>
    obtain ⟨vs, hvs⟩ := readable_ofMembers members
    exact ⟨_, by rw [Tree.ofJson, Tree.toJson?, hvs, Option.map_some]⟩
  | _ => exact ⟨_, rfl⟩

theorem readable_ofItems (items : List Json) :
    ∃ vs, Tree.toItems? (Tree.ofItems items) = some vs := by
  cases items with
  | nil => exact ⟨[], rfl⟩
  | cons j items =>
    obtain ⟨v, hv⟩ := readable_ofJson j
    obtain ⟨vs, hvs⟩ := readable_ofItems items
    exact ⟨v :: vs, by rw [Tree.ofItems, Tree.toItems?, hv, hvs]⟩

theorem readable_ofMembers (members : List (String × Json)) :
    ∃ vs, Tree.toMembers? (Tree.ofMembers members) = some vs := by
  cases members with
  | nil => exact ⟨[], rfl⟩
  | cons m members =>
    obtain ⟨k, j⟩ := m
    obtain ⟨v, hv⟩ := readable_ofJson j
    obtain ⟨vs, hvs⟩ := readable_ofMembers members
    exact ⟨(k, v) :: vs, by rw [Tree.ofMembers, Tree.toMembers?, hv, hvs]⟩

end

theorem filter_present (keep : String → Bool) (fields : List (String × Option Json)) :
    (present fields).filter (fun m => keep m.1) = present (fields.filter fun f => keep f.1) := by
  induction fields with
  | nil => rfl
  | cons f fields ih =>
    rw [present] at ih ⊢
    rw [List.flatMap_cons, List.filter_append, ih, List.filter_cons]
    obtain ⟨key, o⟩ := f
    cases o <;> cases hkeep : keep key <;> simp [member?, present, hkeep]

/-- The tag of a variant is found, and the rest is left without it. -/
theorem tagged?_present {fields : List (String × Option Json)} (h : (fields.map Prod.fst).Nodup)
    {tag name : String} (htag : (Ordered.get? tag fields).join = some (.string name))
    {names : List String} (hname : name ∈ names) (buffered : Bool) :
    (Tree.ofJson (.object (present fields))).tagged? buffered tag names =
      some (name, .ofJson (.object (present (fields.filter fun f => f.1 != tag)))) := by
  have hreadable : (Tree.ofJson (.object (present fields))).readable = true := by
    obtain ⟨v, hv⟩ := readable_ofJson (.object (present fields))
    rw [Tree.readable, hv, Option.isSome_some]
  have hfound : (present fields).filter (fun m => m.1 == tag) = [(tag, .string name)] := by
    rw [← get?_present tag h] at htag
    exact Ordered.filter_key ((keys_present_sublist fields).nodup h) htag
  have hrest := filter_present (fun key => key != tag) fields
  have hobject (members : List (String × Json)) :
      Tree.ofJson (.object members) = .object (members.map fun m => (m.1, Tree.ofJson m.2)) := by
    rw [Tree.ofJson, Tree.ofMembers_eq]
  rw [hobject] at hreadable
  rw [hobject, hobject, ← hrest, Tree.tagged?, hreadable]
  simp [List.filter_map, Function.comp_def, hfound, Tree.variantName?, Tree.ofJson, hname]

end Ensemble.Json
