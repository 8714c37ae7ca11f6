import Ensemble.Json.Record
import Ensemble.Proofs.Json.Tree

/-!
What is read from records.  A declared field is found by its name in an object and by its place in a
list, and a value that was decoded from a field can be encoded again as it stood there.
-/

namespace Ensemble.Json

/-! ## Fields by name or by place -/

/-- The value of a declared field, in an object by its name and in a list by its place. -/
def field? (names : List String) (name : String) : Json → Option Json
  | .object members => Ordered.get? name members
  | .array items => Ordered.get? name (names.zip items)
  | _ => none

theorem field?_of_isObject {j : Json} (h : j.isObject = true) (names : List String)
    (name : String) : j.field? names name = j.get? name := by
  cases j with
  | object members => rfl
  | _ => cases h

theorem get?_of_ofTree? {names : List String} {j : Json} {fields : Fields}
    (h : Fields.ofTree? names (.ofJson j) = some fields) {name : String} (hname : name ∈ names) :
    Ordered.get? name fields = (j.field? names name).map .ofJson := by
  cases j with
  | object members =>
    rw [Tree.ofJson, Tree.ofMembers_eq, Fields.ofTree?] at h
    split at h
    · rw [← Option.some.inj h, Ordered.get?_filter (by simpa using hname), Ordered.get?_map, field?]
    · cases h
  | array items =>
    rw [Tree.ofJson, Tree.ofItems_eq, Fields.ofTree?] at h
    split at h
    · rw [← Option.some.inj h, List.zip_map_right, field?]
      exact Ordered.get?_map name Tree.ofJson (names.zip items)
    · cases h
  | _ => cases h

theorem isObject_of_get? {j v : Json} {key : String} (h : j.get? key = some v) :
    j.isObject = true := by
  cases j with
  | object members => rfl
  | _ => cases h

theorem Fields.distinct_of_nodup {fields : Fields} (h : (Ordered.keys fields).Nodup) :
    fields.distinct = true := by
  induction fields with
  | nil => rfl
  | cons f fields ih =>
    obtain ⟨hnot, hnodup⟩ := List.nodup_cons.mp h
    rw [distinct, ih hnodup, Bool.and_true, List.all_eq_true]
    intro m hm
    have hne : m.1 ≠ f.1 := fun heq => hnot (heq ▸ List.mem_map_of_mem hm)
    simpa using hne

/-- The fields of an object can be read, whatever other members it has. -/
theorem exists_ofTree?_of_nodup {members : List (String × Json)}
    (h : (Ordered.keys members).Nodup) (names : List String) :
    ∃ fields, Fields.ofTree? names (.ofJson (.object members)) = some fields := by
  have hnodup : (Ordered.keys (members.map fun m => (m.1, Tree.ofJson m.2))).Nodup := by
    rw [Ordered.keys_map]
    exact h
  rw [Tree.ofJson, Tree.ofMembers_eq, Fields.ofTree?]
  exact ⟨_, if_pos (Fields.distinct_of_nodup (Ordered.nodup_keys_filter hnodup _))⟩

theorem exists_ofTree? {j : Json} (hobject : j.isObject = true) (hkeys : j.KeysAscend)
    (names : List String) : ∃ fields, Fields.ofTree? names (.ofJson j) = some fields := by
  cases j with
  | object members => exact exists_ofTree?_of_nodup (Ordered.Sorted.nodup_keys hkeys.1) names
  | _ => cases hobject

/-- Fields are read from objects and lists only. -/
theorem object_or_list_of_ofTree? {names : List String} {j : Json} {fields : Fields}
    (h : Fields.ofTree? names (.ofJson j) = some fields) :
    j.isObject = true ∨ j.items?.isSome = true := by
  cases j with
  | object members => exact .inl rfl
  | array items => exact .inr rfl
  | _ => cases h

/-! ## Decoded values -/

/-- What is decoded can be encoded again as it was. -/
def Recovers {α : Type} (decode : Tree → Option α) (encode : α → Json) : Prop :=
  ∀ {j a}, decode (.ofJson j) = some a → encode a = j

theorem recovers_below (bound : Nat) : Recovers (Tree.below? bound) .nat := by
  intro j n h
  cases j with
  | number number =>
    cases number with
    | int i =>
      rw [Tree.ofJson, Tree.below?] at h
      split at h
      · next hi =>
        rw [← Option.some.inj h, nat, Int.toNat_of_nonneg hi.1]
      · cases h
    | double negative magnitude => cases h
  | _ => cases h

theorem lt_of_below? {bound n : Nat} {t : Tree} (h : t.below? bound = some n) : n < bound := by
  unfold Tree.below? at h
  split at h
  · split at h
    · next hi =>
      cases h
      omega
    · cases h
  · cases h

theorem recovers_uint32 : Recovers Tree.uint32? fun n => .nat n.toNat := by
  intro j n h
  obtain ⟨m, hm, rfl⟩ := Option.map_eq_some_iff.mp h
  show nat (UInt32.ofNat m).toNat = j
  rw [← recovers_below UInt32.size hm, UInt32.toNat_ofNat_of_lt' (lt_of_below? hm)]

theorem recovers_uint64 : Recovers Tree.uint64? fun n => .nat n.toNat := by
  intro j n h
  obtain ⟨m, hm, rfl⟩ := Option.map_eq_some_iff.mp h
  show nat (UInt64.ofNat m).toNat = j
  rw [← recovers_below UInt64.size hm, UInt64.toNat_ofNat_of_lt' (lt_of_below? hm)]

theorem recovers_bool : Recovers Tree.bool? .bool := by
  intro j b h
  cases j with
  | bool b' =>
    rw [← Option.some.inj h]
  | _ => cases h

theorem recovers_string : Recovers Tree.string? .string := by
  intro j s h
  cases j with
  | string s' =>
    rw [← Option.some.inj h]
  | _ => cases h

theorem recovers_nullable {α : Type} {decode : Tree → Option α} {encode : α → Json}
    (h : Recovers decode encode) : Recovers (Tree.nullable decode) (ofOption encode) := by
  intro j o ho
  cases j with
  | null =>
    cases ho
    rfl
  | _ =>
    obtain ⟨a, ha, rfl⟩ := Option.map_eq_some_iff.mp ho
    exact h ha

/-- A field that is not given has its built-in value, any other one what was given. -/
theorem encode_withDefault {α : Type} {decode : Tree → Option α} {encode : α → Json}
    (hrecovers : Recovers decode encode) {fields : Fields} {name : String} {o : Option Json}
    (hget : Ordered.get? name fields = o.map .ofJson) {fallback a : α}
    (h : fields.withDefault name fallback decode = some a) :
    encode a = o.getD (encode fallback) := by
  rw [Fields.withDefault, hget] at h
  cases o with
  | none => rw [← Option.some.inj h, Option.getD_none]
  | some j => rw [hrecovers h, Option.getD_some]

end Ensemble.Json
