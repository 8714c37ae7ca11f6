import Ensemble.Proofs.Json.Record
import Ensemble.Proofs.Json.Written

/-!
Records whose fields may hold nothing.  Only the fields that hold something are written, in whatever
order, and each of them is found again by its key.
-/

namespace Ensemble.Json

open Ensemble.Json.Tree (Says)

theorem mem_member? {key : String} {o : Option Json} {m : String × Json} (h : m ∈ member? key o) :
    o = some m.2 := by
  cases o with
  | none => cases h
  | some j => rw [List.mem_singleton.mp h]

@[simp] theorem get?_member? (k key : String) (o : Option Json) :
    Ordered.get? k (member? key o) = if k = key then o else none := by
  cases o <;> simp [member?]

/-- The members of a record whose fields are given. -/
def present (fields : List (String × Option Json)) : List (String × Json) :=
  fields.flatMap fun f => member? f.1 f.2

theorem keys_present_sublist (fields : List (String × Option Json)) :
    (Ordered.keys (present fields)).Sublist (fields.map Prod.fst) := by
  induction fields with
  | nil => exact List.Sublist.refl []
  | cons f fields ih =>
    obtain ⟨key, o⟩ := f
    cases o with
    | none => exact ih.cons key
    | some j => exact ih.cons_cons key

theorem get?_present (k : String) {fields : List (String × Option Json)}
    (h : (fields.map Prod.fst).Nodup) :
    Ordered.get? k (present fields) = (Ordered.get? k fields).join := by
  induction fields with
  | nil => rfl
  | cons f fields ih =>
    obtain ⟨hnot, hnodup⟩ := List.nodup_cons.mp h
    rw [present, List.flatMap_cons, Ordered.get?_append, get?_member?, Ordered.get?_cons]
    by_cases hk : k = f.1
    · -- no later field has this key
      have hrest : Ordered.get? k (present fields) = none := by
        rw [Ordered.get?_eq_none_iff, hk]
        exact fun hmem => hnot ((keys_present_sublist fields).subset hmem)
      rw [present] at hrest
      rw [if_pos hk, if_pos hk, hrest, Option.or_none]
      rfl
    · rw [if_neg hk, if_neg hk, ← ih hnodup]
      rfl

theorem sorted_present {fields : List (String × Option Json)}
    (h : (fields.map Prod.fst).Pairwise (· < ·)) : Ordered.Sorted (present fields) :=
  Ordered.sorted_of_pairwise_keys (h.sublist (keys_present_sublist fields))

theorem plain_present {limit : Nat} {fields : List (String × Option Json)}
    (h : ∀ f ∈ fields, ∀ j ∈ f.2, Plain limit j) :
    Plain (limit + 1) (.object (present fields)) := by
  apply plain_object
  intro m hm
  obtain ⟨f, hf, hm⟩ := List.mem_flatMap.mp hm
  exact h f hf m.2 (mem_member? hm)

theorem forall₂_member? (key : String) {o o' : Option Json} (h : Option.Rel Says o o') :
    List.Forall₂ (fun m m' => m.1 = m'.1 ∧ Says m.2 m'.2) (member? key o) (member? key o') := by
  cases h with
  | none => exact List.Forall₂.nil
  | some hj => exact List.Forall₂.cons ⟨rfl, hj⟩ List.Forall₂.nil

/-- A record says what another one says whose fields stand in the order of their keys. -/
theorem says_present {fields stand meant : List (String × Option Json)}
    (h : List.Forall₂ (fun f g => f.1 = g.1 ∧ Option.Rel Says f.2 g.2) fields stand)
    (hperm : stand.Perm meant) (hsorted : (meant.map Prod.fst).Pairwise (· < ·)) :
    Says (.object (present fields)) (.object (present meant)) := by
  have hmembers : List.Forall₂ (fun m m' => m.1 = m'.1 ∧ Says m.2 m'.2) (present fields)
      (present stand) := by
    clear hperm
    induction h with
    | nil => exact List.Forall₂.nil
    | @cons f g _ _ hf _ ih =>
      obtain ⟨hkey, hvalue⟩ := hf
      have hmember := forall₂_member? f.1 hvalue
      rw [present, present, List.flatMap_cons, List.flatMap_cons, ← hkey]
      exact List.rel_append hmember ih
  exact Tree.says_object hmembers (hperm.flatMap_right _) (sorted_present hsorted)

theorem rel_says_self {o : Option Json} (h : ∀ j ∈ o, j.Canonical) : Option.Rel Says o o := by
  cases o with
  | none => exact Option.Rel.none
  | some j => exact Option.Rel.some (Tree.says_self (h j rfl))

theorem rel_says_string (o : Option String) :
    Option.Rel Says (o.map Json.string) (o.map Json.string) := by
  apply rel_says_self
  intro j hj
  obtain ⟨s, -, rfl⟩ := Option.map_eq_some_iff.mp hj
  trivial

theorem plain_of_mem_string {limit : Nat} {o : Option String} :
    ∀ j ∈ o.map Json.string, Plain limit j := by
  intro j hj
  obtain ⟨s, -, rfl⟩ := Option.map_eq_some_iff.mp hj
  exact plain_string limit s

end Ensemble.Json
