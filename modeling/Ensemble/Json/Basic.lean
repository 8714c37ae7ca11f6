import Ensemble.Ordered

/-!
JSON values.  Numbers are whole numbers of 64 bits or doubles; an object is a map with increasing
keys, so two objects with the same members are the same value.
-/

namespace Ensemble

/-- A whole number from -2^63 up to below 2^64, or a double given by its sign and magnitude. -/
inductive Json.Number where
  | int (n : Int)
  | double (negative : Bool) (magnitude : Nat)
  deriving DecidableEq

inductive Json where
  | null
  | bool (b : Bool)
  | number (n : Json.Number)
  | string (s : String)
  | array (items : List Json)
  | object (members : List (String × Json))

namespace Json

/-- The whole numbers that keep their exact value. -/
def Number.inRange (n : Int) : Bool :=
  -(Int.pow 2 63) ≤ n && n < Int.pow 2 64

instance : Inhabited Json := ⟨.null⟩

mutual

def same : Json → Json → Bool
  | .null, .null => true
  | .bool a, .bool b => a = b
  | .number a, .number b => a = b
  | .string a, .string b => a = b
  | .array as, .array bs => sameItems as bs
  | .object as, .object bs => sameMembers as bs
  | _, _ => false

def sameItems : List Json → List Json → Bool
  | [], [] => true
  | a :: as, b :: bs => same a b && sameItems as bs
  | _, _ => false

def sameMembers : List (String × Json) → List (String × Json) → Bool
  | [], [] => true
  | (k, a) :: as, (l, b) :: bs => k = l && same a b && sameMembers as bs
  | _, _ => false

end

mutual

theorem same_iff (a b : Json) : same a b = true ↔ a = b := by
  cases a <;> cases b <;> simp [same, sameItems_iff, sameMembers_iff]

theorem sameItems_iff (as bs : List Json) : sameItems as bs = true ↔ as = bs := by
  cases as with
  | nil => cases bs <;> simp [sameItems]
  | cons a as =>
    cases bs with
    | nil => simp [sameItems]
    | cons b bs => simp [sameItems, same_iff a b, sameItems_iff as bs]

theorem sameMembers_iff (as bs : List (String × Json)) : sameMembers as bs = true ↔ as = bs := by
  cases as with
  | nil => cases bs <;> simp [sameMembers]
  | cons a as =>
    cases bs with
    | nil => simp [sameMembers]
    | cons b bs =>
      obtain ⟨k, a⟩ := a
      obtain ⟨l, b⟩ := b
      simp [sameMembers, same_iff a b, sameMembers_iff as bs]

end

instance : DecidableEq Json := fun a b => decidable_of_iff _ (same_iff a b)

/-- What stands for the account of a JSON fault inside a message. -/
def faultText : String := "<json>"

def nat (n : Nat) : Json := .number (.int n)

def isObject : Json → Bool
  | .object _ => true
  | _ => false

/-- The value at a key of an object; anything else has no keys. -/
def get? (key : String) : Json → Option Json
  | .object members => Ordered.get? key members
  | _ => none

def string? : Json → Option String
  | .string s => some s
  | _ => none

def items? : Json → Option (List Json)
  | .array items => some items
  | _ => none

def members? : Json → Option (List (String × Json))
  | .object members => some members
  | _ => none

def unsigned? : Json → Option Nat
  | .number (.int n) => if 0 ≤ n then some n.toNat else none
  | _ => none

/-- At most one member, for a field that may be missing. -/
def member? (key : String) : Option Json → List (String × Json)
  | none => []
  | some j => [(key, j)]

def ofOption {α : Type} (encode : α → Json) : Option α → Json
  | none => .null
  | some a => encode a

mutual

/-- Every object inside has strictly increasing keys, and every whole number is of 64 bits. -/
def Canonical : Json → Prop
  | .null => True
  | .bool _ => True
  | .number (.int n) => Number.inRange n
  | .number (.double _ _) => True
  | .string _ => True
  | .array items => CanonicalItems items
  | .object members => Ordered.Sorted members ∧ CanonicalMembers members

def CanonicalItems : List Json → Prop
  | [] => True
  | j :: rest => Canonical j ∧ CanonicalItems rest

def CanonicalMembers : List (String × Json) → Prop
  | [] => True
  | (_, j) :: rest => Canonical j ∧ CanonicalMembers rest

end

end Json

end Ensemble
