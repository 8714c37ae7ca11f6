import Ensemble.Json.Merge
import Ensemble.Proofs.Json.Tree

/-!
What a value that is laid over another one leaves of it.  An object overrides the members that it
has and keeps the others; anything else leaves nothing.
-/

namespace Ensemble.Json

theorem merge_onto {base : Json} (h : base.isObject = false) (j : Json) : merge base j = j := by
  cases base with
  | object members => cases h
  | _ => cases j <;> simp [merge]

theorem merge_of_not_object (base : Json) {j : Json} (h : j.isObject = false) :
    merge base j = j := by
  cases j with
  | object members => cases h
  | _ => simp [merge]

/-- What is laid over a value decides whether there is an object. -/
theorem isObject_merge (base j : Json) : (merge base j).isObject = j.isObject := by
  cases hj : j.isObject with
  | false => rw [merge_of_not_object base hj, hj]
  | true =>
    cases j with
    | object layer =>
      cases base with
      | object members =>
        rw [merge]
        rfl
      | _ =>
        rw [merge_onto rfl]
        rfl
    | _ => cases hj

theorem mergeMembers_cons (members : List (String × Json)) (m : String × Json)
    (layer : List (String × Json)) :
    mergeMembers members (m :: layer) =
      mergeMembers (Ordered.alter m.1 (fun old => merge (old.getD .null) m.2) members) layer := by
  rw [mergeMembers]

theorem sorted_mergeMembers {members : List (String × Json)} (h : Ordered.Sorted members)
    (layer : List (String × Json)) : Ordered.Sorted (mergeMembers members layer) := by
  induction layer generalizing members with
  | nil =>
    rw [mergeMembers]
    exact h
  | cons m layer ih =>
    rw [mergeMembers_cons]
    exact ih (Ordered.sorted_alter _ _ h)

theorem get?_mergeMembers (k : String) {members layer : List (String × Json)}
    (h : Ordered.Sorted members) (hlayer : (Ordered.keys layer).Nodup) :
    Ordered.get? k (mergeMembers members layer) =
      match Ordered.get? k layer with
      | none => Ordered.get? k members
      | some j => some (merge ((Ordered.get? k members).getD .null) j) := by
  induction layer generalizing members with
  | nil => rw [mergeMembers, Ordered.get?_nil]
  | cons m layer ih =>
    obtain ⟨hnot, hnodup⟩ := List.nodup_cons.mp hlayer
    rw [mergeMembers_cons, ih (Ordered.sorted_alter _ _ h) hnodup, Ordered.get?_alter _ _ _ h,
      Ordered.get?_cons]
    by_cases hk : k = m.1
    · -- no later member of the layer has this key
      have hrest : Ordered.get? k layer = none := by
        rw [Ordered.get?_eq_none_iff, hk]
        exact hnot
      rw [hrest, if_pos hk, if_pos hk, hk]
    · rw [if_neg hk, if_neg hk]

theorem KeysAscend.object_sorted {members : List (String × Json)}
    (h : (object members).KeysAscend) : Ordered.Sorted members :=
  h.1

theorem KeysAscend.getD_get? {j : Json} (h : j.KeysAscend) (key : String) :
    ((j.get? key).getD .null).KeysAscend := by
  cases hv : j.get? key with
  | none => trivial
  | some v => exact h.of_get? hv

/-- Key by key: what an object has is laid over what was there, and the rest stays. -/
theorem get?_merge {base j : Json} (hbase : base.KeysAscend) (hj : j.KeysAscend)
    (hobject : j.isObject = true) (k : String) :
    (merge base j).get? k =
      match j.get? k with
      | none => base.get? k
      | some v => some (merge ((base.get? k).getD .null) v) := by
  cases j with
  | object layer =>
    cases base with
    | object members =>
      rw [merge]
      exact get?_mergeMembers k hbase.object_sorted hj.object_sorted.nodup_keys
    | _ =>
      rw [merge_onto rfl]
      show Ordered.get? k layer = match Ordered.get? k layer with
        | none => none
        | some v => some (merge .null v)
      cases Ordered.get? k layer with
      | none => rfl
      | some v => exact congrArg some (merge_onto rfl v).symm
  | _ => cases hobject

theorem keysAscend_merge {base j : Json} (hbase : base.KeysAscend) (hj : j.KeysAscend) :
    (merge base j).KeysAscend := by
  induction j generalizing base with
  | object layer ih =>
    cases base with
    | object members =>
      rw [merge]
      have hlayer : ∀ m ∈ layer, m.2.KeysAscend := (membersAscend_iff layer).mp hj.2
      refine ⟨sorted_mergeMembers hbase.object_sorted layer,
        (membersAscend_iff _).mpr fun m hm => ?_⟩
      -- what lies at a key is a member of the base, or one of the layer laid over it
      have hget := (Ordered.get?_eq_some_iff
        (sorted_mergeMembers hbase.object_sorted layer).nodup_keys).mpr hm
      rw [get?_mergeMembers m.1 hbase.object_sorted hj.object_sorted.nodup_keys] at hget
      cases hover : Ordered.get? m.1 layer with
      | none =>
        rw [hover] at hget
        exact hbase.of_get? hget
      | some v =>
        rw [hover] at hget
        have hmem := Ordered.mem_of_get? hover
        rw [← Option.some.inj hget]
        exact ih _ hmem (hbase.getD_get? m.1) (hlayer _ hmem)
    | _ =>
      rw [merge_onto rfl]
      exact hj
  | _ =>
    rw [merge_of_not_object _ rfl]
    exact hj

end Ensemble.Json
