import Ensemble.Json.Tree

/-!
Reading records, variants and tagged variants from what a JSON text says.  A record stands as an
object, whose unknown members are skipped and whose declared ones may not repeat, or as an array of
its fields in their declared order.
-/

namespace Ensemble.Json

/-- The declared fields that are given, each with what was given. -/
abbrev Fields := List (String × Tree)

namespace Fields

def distinct : Fields → Bool
  | [] => true
  | (k, _) :: rest => rest.all (fun m => m.1 != k) && distinct rest

/-- The fields of a record with the given declared names. -/
def ofTree? (names : List String) : Tree → Option Fields
  | .object members =>
    let known := members.filter fun m => names.contains m.1
    if distinct known then some known else none
  | .array items => if items.length ≤ names.length then some (names.zip items) else none
  | _ => none

def required {α : Type} (fields : Fields) (name : String) (decode : Tree → Option α) : Option α :=
  match Ordered.get? name fields with
  | some t => decode t
  | none => none

/-- A field that stands for a known value when it is not given. -/
def withDefault {α : Type} (fields : Fields) (name : String) (fallback : α)
    (decode : Tree → Option α) : Option α :=
  match Ordered.get? name fields with
  | some t => decode t
  | none => some fallback

end Fields

namespace Tree

def string? : Tree → Option String
  | .string s => some s
  | _ => none

def bool? : Tree → Option Bool
  | .bool b => some b
  | _ => none

def below? (bound : Nat) : Tree → Option Nat
  | .number (.int n) => if 0 ≤ n ∧ n < bound then some n.toNat else none
  | _ => none

def uint32? (t : Tree) : Option UInt32 :=
  (t.below? UInt32.size).map UInt32.ofNat

def uint64? (t : Tree) : Option UInt64 :=
  (t.below? UInt64.size).map UInt64.ofNat

def nullable {α : Type} (decode : Tree → Option α) : Tree → Option (Option α)
  | .null => some none
  | t => (decode t).map some

def listOf {α : Type} (decode : Tree → Option α) : Tree → Option (List α)
  | .array items => items.mapM decode
  | _ => none

/-- Any object, taken as a value. -/
def members? (t : Tree) : Option (List (String × Json)) :=
  (toJson? t).bind Json.members?

/-- One of finitely many named values: its name, or an object whose only key is the name and which
carries nothing.  A buffered value may carry the empty object for nothing. -/
def variant? {α : Type} (buffered : Bool) (values : List (String × α)) : Tree → Option α
  | .string name => Ordered.get? name values
  | .object [(name, .null)] => Ordered.get? name values
  | .object [(name, .object [])] => if buffered then Ordered.get? name values else none
  | _ => none

/-- The name of a variant: given by itself, or in a buffered value also by its number. -/
def variantName? (buffered : Bool) (names : List String) : Tree → Option String
  | .string name => if names.contains name then some name else none
  | .number (.int n) => if buffered && 0 ≤ n then names[n.toNat]? else none
  | _ => none

/-- The variant name under a tag and the rest of the value, which is read into a buffer and so has
to be readable as a whole.  In an array the tag comes first. -/
def tagged? (buffered : Bool) (tag : String) (names : List String) (t : Tree) :
    Option (String × Tree) :=
  if !t.readable then none
  else
    match t with
    | .object members =>
      match members.filter fun m => m.1 == tag with
      | [(_, name)] =>
        (variantName? buffered names name).map fun n =>
          (n, .object (members.filter fun m => m.1 != tag))
      | _ => none
    | .array (name :: rest) => (variantName? buffered names name).map fun n => (n, .array rest)
    | _ => none

/-- What is left of a tagged variant without fields: any members, but no items. -/
def noFields : Tree → Bool
  | .object _ => true
  | .array items => items.isEmpty
  | _ => false

end Tree

end Ensemble.Json
