import Ensemble.Json.Tree
import Ensemble.Proofs.Json.Depth
import Ensemble.Proofs.Ordered

/-!
From what a text says to the value it denotes.  A value is denoted by the tree that has its parts,
in whatever order the members of its objects stand there, and every value that a tree denotes has
objects with increasing keys.
-/

namespace Ensemble.Json

mutual

/-- Every object inside has strictly increasing keys. -/
def KeysAscend : Json → Prop
  | .array items => ItemsAscend items
  | .object members => Ordered.Sorted members ∧ MembersAscend members
  | _ => True

def ItemsAscend : List Json → Prop
  | [] => True
  | j :: rest => KeysAscend j ∧ ItemsAscend rest

def MembersAscend : List (String × Json) → Prop
  | [] => True
  | (_, j) :: rest => KeysAscend j ∧ MembersAscend rest

end

theorem membersAscend_iff (members : List (String × Json)) :
    MembersAscend members ↔ ∀ m ∈ members, KeysAscend m.2 := by
  induction members with
  | nil => simp [MembersAscend]
  | cons m members ih => rw [MembersAscend, ih, List.forall_mem_cons]

theorem itemsAscend_iff (items : List Json) : ItemsAscend items ↔ ∀ j ∈ items, KeysAscend j := by
  induction items with
  | nil => simp [ItemsAscend]
  | cons j items ih => rw [ItemsAscend, ih, List.forall_mem_cons]

theorem Canonical.keysAscend {j : Json} (h : j.Canonical) : j.KeysAscend := by
  induction j with
  | array items ih =>
    have hitems := (canonicalItems_iff items).mp h
    exact (itemsAscend_iff items).mpr fun j hj => ih j hj (hitems j hj)
  | object members ih =>
    have hmembers := (canonicalMembers_iff members).mp h.2
    exact ⟨h.1, (membersAscend_iff members).mpr fun m hm => ih m hm (hmembers m hm)⟩
  | _ => trivial

theorem KeysAscend.of_get? {j v : Json} {key : String} (h : j.KeysAscend)
    (hv : j.get? key = some v) : v.KeysAscend := by
  cases j with
  | object members => exact (membersAscend_iff members).mp h.2 _ (Ordered.mem_of_get? hv)
  | _ => cases hv

namespace Tree

theorem ofItems_eq (items : List Json) : ofItems items = items.map ofJson := by
  induction items with
  | nil => rfl
  | cons j items ih => rw [ofItems, ih, List.map_cons]

theorem ofMembers_eq (members : List (String × Json)) :
    ofMembers members = members.map fun m => (m.1, ofJson m.2) := by
  induction members with
  | nil => rfl
  | cons m members ih => rw [ofMembers, ih, List.map_cons]

theorem mem_ofList {members : List (String × Json)} {m : String × Json}
    (h : m ∈ Ordered.ofList members) : m ∈ members := by
  have hget := (Ordered.get?_eq_some_iff (Ordered.sorted_ofList members).nodup_keys).mpr h
  rw [Ordered.get?_ofList] at hget
  exact List.mem_reverse.mp (Ordered.mem_of_get? hget)

mutual

theorem keysAscend_of_toJson? {t : Tree} {j : Json} (h : t.toJson? = some j) : j.KeysAscend := by
  cases t with
  | array items =>
    obtain ⟨js, hjs, rfl⟩ := Option.map_eq_some_iff.mp h
    exact itemsAscend_of_toItems? hjs
  | object members =>
    obtain ⟨ms, hms, rfl⟩ := Option.map_eq_some_iff.mp h
    refine ⟨Ordered.sorted_ofList ms, (membersAscend_iff _).mpr fun m hm => ?_⟩
    exact (membersAscend_iff ms).mp (membersAscend_of_toMembers? hms) m (mem_ofList hm)
  | unreadable => cases h
  | _ =>
    cases h
    trivial

theorem itemsAscend_of_toItems? {ts : List Tree} {js : List Json} (h : toItems? ts = some js) :
    ItemsAscend js := by
  cases ts with
  | nil =>
    cases h
    trivial
  | cons t ts =>
    rw [toItems?] at h
    split at h
    · next ht hts =>
      cases h
      exact ⟨keysAscend_of_toJson? ht, itemsAscend_of_toItems? hts⟩
    · cases h

theorem membersAscend_of_toMembers? {ts : List (String × Tree)} {ms : List (String × Json)}
    (h : toMembers? ts = some ms) : MembersAscend ms := by
  cases ts with
  | nil =>
    cases h
    trivial
  | cons m ts =>
    obtain ⟨k, t⟩ := m
    rw [toMembers?] at h
    split at h
    · next ht hts =>
      cases h
      exact ⟨keysAscend_of_toJson? ht, membersAscend_of_toMembers? hts⟩
    · cases h

end

/-! ## Values that stand for others -/

/-- A value, the members of whose objects may stand in any order, says another one. -/
def Says (written meant : Json) : Prop :=
  (ofJson written).toJson? = some meant

theorem says_array {items meant : List Json} (h : List.Forall₂ Says items meant) :
    Says (.array items) (.array meant) := by
  have hitems : toItems? (ofItems items) = some meant := by
    induction h with
    | nil => rfl
    | cons hj _ ih =>
      rw [Says] at hj
      rw [ofItems, toItems?, hj, ih]
  rw [Says, ofJson, toJson?, hitems]
  rfl

theorem says_object {members stand meant : List (String × Json)}
    (h : List.Forall₂ (fun m m' => m.1 = m'.1 ∧ Says m.2 m'.2) members stand)
    (hperm : stand.Perm meant) (hsorted : Ordered.Sorted meant) :
    Says (.object members) (.object meant) := by
  have hmembers : toMembers? (ofMembers members) = some stand := by
    clear hperm
    induction h with
    | nil => rfl
    | cons hm _ ih =>
      obtain ⟨hkey, hvalue⟩ := hm
      rw [Says] at hvalue
      rw [ofMembers, toMembers?, hvalue, ih, hkey]
  rw [Says, ofJson, toJson?, hmembers, Option.map_some, Ordered.ofList_of_perm hsorted hperm]

/-- A value whose objects have increasing keys says itself. -/
theorem says_of_keysAscend {j : Json} (h : j.KeysAscend) : Says j j := by
  induction j with
  | array items ih =>
    have hitems := (itemsAscend_iff items).mp h
    exact says_array (List.forall₂_same.mpr fun j hj => ih j hj (hitems j hj))
  | object members ih =>
    have hmembers := (membersAscend_iff members).mp h.2
    refine says_object (List.forall₂_same.mpr fun m hm => ?_) (List.Perm.refl members) h.1
    exact ⟨rfl, ih m hm (hmembers m hm)⟩
  | _ => rfl

theorem says_self {j : Json} (h : j.Canonical) : Says j j :=
  says_of_keysAscend h.keysAscend

end Tree

end Ensemble.Json
