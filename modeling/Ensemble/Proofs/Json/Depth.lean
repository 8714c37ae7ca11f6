import Ensemble.Json.Basic

/-!
Nested JSON values.  What holds of the scalars, and of an array or object as soon as it holds of
everything directly inside, holds of every value; the depth of a value counts the brackets around
its innermost parts.
-/

namespace Ensemble.Json

@[induction_eliminator]
theorem nested {motive : Json → Prop} (null : motive .null) (bool : ∀ b, motive (.bool b))
    (number : ∀ n, motive (.number n)) (string : ∀ s, motive (.string s))
    (array : ∀ items, (∀ j ∈ items, motive j) → motive (.array items))
    (object : ∀ members, (∀ m ∈ members, motive m.2) → motive (.object members)) (j : Json) :
    motive j := by
  apply @Json.rec motive (fun items => ∀ j ∈ items, motive j)
    (fun members => ∀ m ∈ members, motive m.2) (fun m => motive m.2) null bool number string array
    object
  · nofun
  · intro j items hj hitems
    exact List.forall_mem_cons.mpr ⟨hj, hitems⟩
  · nofun
  · intro m members hm hmembers
    exact List.forall_mem_cons.mpr ⟨hm, hmembers⟩
  · intro k j hj
    exact hj

mutual

/-- The number of brackets around the innermost part. -/
def depth : Json → Nat
  | .array items => depthItems items + 1
  | .object members => depthMembers members + 1
  | _ => 0

def depthItems : List Json → Nat
  | [] => 0
  | j :: rest => max (depth j) (depthItems rest)

def depthMembers : List (String × Json) → Nat
  | [] => 0
  | (_, j) :: rest => max (depth j) (depthMembers rest)

end

mutual

/-- Every number inside is a whole number of 64 bits. -/
def wholeNumbers : Json → Bool
  | .number (.int n) => Number.inRange n
  | .number (.double _ _) => false
  | .array items => wholeItems items
  | .object members => wholeMembers members
  | _ => true

def wholeItems : List Json → Bool
  | [] => true
  | j :: rest => wholeNumbers j && wholeItems rest

def wholeMembers : List (String × Json) → Bool
  | [] => true
  | (_, j) :: rest => wholeNumbers j && wholeMembers rest

end

theorem depthItems_le_iff {items : List Json} {n : Nat} :
    depthItems items ≤ n ↔ ∀ j ∈ items, depth j ≤ n := by
  induction items with
  | nil => simp [depthItems]
  | cons j items ih => rw [depthItems, Nat.max_le, ih, List.forall_mem_cons]

theorem depthMembers_le_iff {members : List (String × Json)} {n : Nat} :
    depthMembers members ≤ n ↔ ∀ m ∈ members, depth m.2 ≤ n := by
  induction members with
  | nil => simp [depthMembers]
  | cons m members ih => rw [depthMembers, Nat.max_le, ih, List.forall_mem_cons]

theorem depth_lt_of_mem_items {j : Json} {items : List Json} (h : j ∈ items) :
    depth j < depth (.array items) :=
  Nat.lt_succ_of_le (depthItems_le_iff.mp (Nat.le_refl _) j h)

theorem depth_lt_of_mem_members {m : String × Json} {members : List (String × Json)}
    (h : m ∈ members) : depth m.2 < depth (.object members) :=
  Nat.lt_succ_of_le (depthMembers_le_iff.mp (Nat.le_refl _) m h)

theorem wholeItems_iff (items : List Json) :
    wholeItems items = true ↔ ∀ j ∈ items, wholeNumbers j = true := by
  induction items with
  | nil => simp [wholeItems]
  | cons j items ih => simp [wholeItems, ih]

theorem wholeMembers_iff (members : List (String × Json)) :
    wholeMembers members = true ↔ ∀ m ∈ members, wholeNumbers m.2 = true := by
  induction members with
  | nil => simp [wholeMembers]
  | cons m members ih => simp [wholeMembers, ih]

/-- Whole numbers only, and brackets nested at most so deep. -/
structure Plain (limit : Nat) (j : Json) : Prop where
  whole : j.wholeNumbers = true
  shallow : j.depth ≤ limit

theorem plain_string (limit : Nat) (s : String) : Plain limit (.string s) :=
  ⟨rfl, Nat.zero_le limit⟩

theorem plain_nat (limit : Nat) {n : Nat} (h : n < UInt64.size) : Plain limit (.nat n) := by
  refine ⟨?_, Nat.zero_le limit⟩
  have hpow : Int.pow 2 63 = 2 ^ 63 ∧ Int.pow 2 64 = 2 ^ 64 := ⟨rfl, rfl⟩
  have hbound : n < 2 ^ 64 := h
  rw [Json.nat, wholeNumbers, Number.inRange, hpow.1, hpow.2, Bool.and_eq_true, decide_eq_true_eq,
    decide_eq_true_eq]
  omega

theorem plain_array {limit : Nat} {items : List Json} (h : ∀ j ∈ items, Plain limit j) :
    Plain (limit + 1) (.array items) :=
  ⟨(wholeItems_iff items).mpr fun j hj => (h j hj).whole,
    Nat.succ_le_succ (depthItems_le_iff.mpr fun j hj => (h j hj).shallow)⟩

theorem plain_object {limit : Nat} {members : List (String × Json)}
    (h : ∀ m ∈ members, Plain limit m.2) : Plain (limit + 1) (.object members) :=
  ⟨(wholeMembers_iff members).mpr fun m hm => (h m hm).whole,
    Nat.succ_le_succ (depthMembers_le_iff.mpr fun m hm => (h m hm).shallow)⟩

theorem canonicalItems_iff (items : List Json) :
    CanonicalItems items ↔ ∀ j ∈ items, Canonical j := by
  induction items with
  | nil => simp [CanonicalItems]
  | cons j items ih => simp [CanonicalItems, ih]

theorem canonicalMembers_iff (members : List (String × Json)) :
    CanonicalMembers members ↔ ∀ m ∈ members, Canonical m.2 := by
  induction members with
  | nil => simp [CanonicalMembers]
  | cons m members ih => simp [CanonicalMembers, ih]

end Ensemble.Json
