import Ensemble.Proofs.Json.Merge
import Ensemble.Proofs.Json.Record

/-!
Laying one value over another, seen along paths of object keys.  Wherever the upper value says
something that is no object it is what counts, objects are united, and along every path on which the
upper value says nothing the lower one shows through.
-/

namespace Ensemble.Json

/-- The value at the end of a path of object keys. -/
def at? : Json → List String → Option Json
  | j, [] => some j
  | j, k :: p => (j.get? k).bind fun v => v.at? p

@[simp] theorem at?_nil (j : Json) : j.at? [] = some j := rfl

theorem at?_cons (j : Json) (k : String) (p : List String) :
    j.at? (k :: p) = (j.get? k).bind fun v => v.at? p := rfl

/-- A key that is missing has nothing below it, just as a `null` that stands there. -/
theorem at?_getD_null (o : Option Json) {p : List String} (hp : p ≠ []) :
    (o.getD .null).at? p = o.bind fun v => v.at? p := by
  cases o with
  | some v => rfl
  | none =>
    cases p with
    | nil => exact absurd rfl hp
    | cons k p => rfl

/-- Two objects are the same if they have the same value at each key. -/
theorem eq_of_get? {i j : Json} (hi : i.KeysAscend) (hj : j.KeysAscend)
    (hiobject : i.isObject = true) (hjobject : j.isObject = true)
    (h : ∀ k, i.get? k = j.get? k) : i = j := by
  cases i with
  | object members =>
    cases j with
    | object members' =>
      exact congrArg object (Ordered.Sorted.ext_get? hi.object_sorted hj.object_sorted h)
    | _ => cases hjobject
  | _ => cases hiobject

/-! ## Along a path -/

section Path

variable {base overlay : Json}

/-- What the upper value has at the end of a path is laid over what the lower one has there. -/
theorem at?_merge_of_some {p : List String} {v : Json} (hbase : base.KeysAscend)
    (hoverlay : overlay.KeysAscend) (h : overlay.at? p = some v) :
    (merge base overlay).at? p = some (merge ((base.at? p).getD .null) v) := by
  induction p generalizing base overlay with
  | nil =>
    cases h
    rfl
  | cons k p ih =>
    obtain ⟨w, hw, hv⟩ := Option.bind_eq_some_iff.mp h
    rw [at?_cons, get?_merge hbase hoverlay (isObject_of_get? hw), hw, Option.bind_some,
      ih (hbase.getD_get? k) (hoverlay.of_get? hw) hv]
    -- the rest of the path may be empty, and then a missing key counts as `null`
    by_cases hp : p = []
    · subst hp
      rw [at?_nil, at?_cons]
      cases base.get? k <;> rfl
    · rw [at?_getD_null _ hp, at?_cons]

/-- Where the upper value ends in an object that has no such key, the lower one shows through. -/
theorem at?_merge_of_none {p : List String} (hbase : base.KeysAscend)
    (hoverlay : overlay.KeysAscend) (h : overlay.at? p = none)
    (hopen : ∀ q, q <+: p → q ≠ p → ∀ v, overlay.at? q = some v → v.isObject = true) :
    (merge base overlay).at? p = base.at? p := by
  induction p generalizing base overlay with
  | nil => cases h
  | cons k p ih =>
    have hobject : overlay.isObject = true :=
      hopen [] List.nil_prefix (List.cons_ne_nil k p).symm overlay rfl
    rw [at?_cons, get?_merge hbase hoverlay hobject]
    cases hw : overlay.get? k with
    | none => rfl
    | some w =>
      rw [at?_cons, hw, Option.bind_some] at h
      have hp : p ≠ [] := by
        rintro rfl
        cases h
      -- a prefix below the key is one of the whole path
      have hopen' : ∀ q, q <+: p → q ≠ p → ∀ v, w.at? q = some v → v.isObject = true := by
        intro q hq hne v hv
        refine hopen (k :: q) (List.cons_prefix_cons.mpr ⟨rfl, hq⟩) ?_ v ?_
        · exact fun heq => hne (List.cons.inj heq).2
        · rw [at?_cons, hw, Option.bind_some, hv]
      rw [Option.bind_some, ih (hbase.getD_get? k) (hoverlay.of_get? hw) h hopen',
        at?_getD_null _ hp, at?_cons]

end Path

/-- Laying a value over another one a second time changes nothing. -/
theorem merge_merge_self {base overlay : Json} (hbase : base.KeysAscend)
    (hoverlay : overlay.KeysAscend) :
    merge (merge base overlay) overlay = merge base overlay := by
  induction overlay generalizing base with
  | object layer ih =>
    have hmerged : (merge base (.object layer)).KeysAscend := keysAscend_merge hbase hoverlay
    apply eq_of_get? (keysAscend_merge hmerged hoverlay) hmerged
    · exact isObject_merge _ _
    · exact isObject_merge _ _
    intro k
    have hlayer : ∀ m ∈ layer, m.2.KeysAscend := (membersAscend_iff layer).mp hoverlay.2
    rw [get?_merge hmerged hoverlay rfl, get?_merge hbase hoverlay rfl]
    cases hv : (object layer).get? k with
    | none => rfl
    | some v =>
      have hmem : (k, v) ∈ layer := Ordered.mem_of_get? hv
      exact congrArg some (ih (k, v) hmem (hbase.getD_get? k) (hlayer _ hmem))
  | _ => rw [merge_of_not_object _ rfl, merge_of_not_object _ rfl]

/-! ## The union of two values -/

/-- A value that has along every path what one of two values has there, the upper one first. -/
structure IsUnion (base overlay merged : Json) : Prop where
  /-- What is no object in the upper value stands. -/
  replaced : ∀ p v, overlay.at? p = some v → v.isObject = false → merged.at? p = some v
  /-- An object of the upper value stands as it is where the lower value has none. -/
  added : ∀ p v, overlay.at? p = some v → v.isObject = true →
    (∀ w, base.at? p = some w → w.isObject = false) → merged.at? p = some v
  /-- Two objects are united. -/
  united : ∀ p v w, overlay.at? p = some v → base.at? p = some w → v.isObject = true →
    w.isObject = true → merged.at? p = some (w.merge v)
  /-- What the upper value leaves open stands as in the lower one, and so does what is missing. -/
  kept : ∀ p, overlay.at? p = none →
    (∀ q, q <+: p → q ≠ p → ∀ v, overlay.at? q = some v → v.isObject = true) →
      merged.at? p = base.at? p

theorem isUnion_merge {base overlay : Json} (hbase : base.KeysAscend)
    (hoverlay : overlay.KeysAscend) : IsUnion base overlay (merge base overlay) where
  replaced := by
    intro p v hv hobject
    rw [at?_merge_of_some hbase hoverlay hv, merge_of_not_object _ hobject]
  added := by
    intro p v hv _ hfree
    have hnone : ((base.at? p).getD .null).isObject = false := by
      cases hw : base.at? p with
      | none => rfl
      | some w => exact hfree w hw
    rw [at?_merge_of_some hbase hoverlay hv, merge_onto hnone]
  united := by
    intro p v w hv hw _ _
    rw [at?_merge_of_some hbase hoverlay hv, hw, Option.getD_some]
  kept := fun p hp hopen => at?_merge_of_none hbase hoverlay hp hopen

/-- Laying a value over another one unites them in favour of the upper one.  Doing so twice is as
good as once, and the empty object changes no object. -/
theorem merge_unites {base overlay : Json} (hbase : base.KeysAscend)
    (hoverlay : overlay.KeysAscend) :
    IsUnion base overlay (merge base overlay) ∧
      merge (merge base overlay) overlay = merge base overlay ∧
      ∀ members, merge (.object members) (.object []) = .object members := by
  refine ⟨isUnion_merge hbase hoverlay, merge_merge_self hbase hoverlay, fun members => ?_⟩
  rw [merge, mergeMembers]

/-- Scalars and objects that take the place of each other, a `null`, and what is left alone at two
depths. -/
theorem merge_unites_nested :
    let base : Json := .object [("a", .object [("x", .nat 1), ("y", .nat 2)]), ("b", .nat 3),
      ("c", .object [("z", .nat 4)])]
    let overlay : Json := .object [("a", .object [("x", .null)]), ("b", .object [("w", .nat 5)]),
      ("c", .bool true)]
    base.KeysAscend ∧ overlay.KeysAscend ∧ IsUnion base overlay (merge base overlay) ∧
      (merge base overlay).at? ["a", "y"] = base.at? ["a", "y"] ∧
      merge base overlay = .object [("a", .object [("x", .null), ("y", .nat 2)]),
        ("b", .object [("w", .nat 5)]), ("c", .bool true)] := by
  intro base overlay
  have hbase : base.KeysAscend := by
    simp only [base, KeysAscend, MembersAscend, Ordered.Sorted, nat]
    decide
  have hoverlay : overlay.KeysAscend := by
    simp only [overlay, KeysAscend, MembersAscend, Ordered.Sorted, nat]
    decide
  have hunion := (merge_unites hbase hoverlay).1
  refine ⟨hbase, hoverlay, hunion, hunion.kept ["a", "y"] rfl ?_, by decide +kernel⟩
  intro q hq hne v hv
  simp only [List.prefix_cons_iff, List.prefix_nil] at hq
  rcases hq with rfl | ⟨t, rfl, rfl | ⟨t, rfl, rfl⟩⟩
  · cases hv
    rfl
  · cases hv
    rfl
  · exact absurd rfl hne

end Ensemble.Json
