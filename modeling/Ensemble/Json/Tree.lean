import Ensemble.Json.Basic

/-!
What a JSON text says, before it is taken as a value.  Members keep the order and the repetitions of
the text, and a part that obeys the grammar without denoting a value is kept as unreadable: a number
beyond the largest double, a string with an unpaired surrogate, brackets nested too deep.  A reader
that skips such a part never notices it.
-/

namespace Ensemble.Json

inductive Tree where
  | null
  | bool (b : Bool)
  | number (n : Number)
  | string (s : String)
  | array (items : List Tree)
  | object (members : List (String × Tree))
  | unreadable

namespace Tree

mutual

/-- The value of a tree: of repeated members the last one counts, and nothing may be unreadable. -/
def toJson? : Tree → Option Json
  | .null => some .null
  | .bool b => some (.bool b)
  | .number n => some (.number n)
  | .string s => some (.string s)
  | .array items => (toItems? items).map .array
  | .object members => (toMembers? members).map fun ms => .object (Ordered.ofList ms)
  | .unreadable => none

def toItems? : List Tree → Option (List Json)
  | [] => some []
  | t :: rest =>
    match toJson? t, toItems? rest with
    | some j, some js => some (j :: js)
    | _, _ => none

def toMembers? : List (String × Tree) → Option (List (String × Json))
  | [] => some []
  | (k, t) :: rest =>
    match toJson? t, toMembers? rest with
    | some j, some ms => some ((k, j) :: ms)
    | _, _ => none

end

mutual

def ofJson : Json → Tree
  | .null => .null
  | .bool b => .bool b
  | .number n => .number n
  | .string s => .string s
  | .array items => .array (ofItems items)
  | .object members => .object (ofMembers members)

def ofItems : List Json → List Tree
  | [] => []
  | j :: rest => ofJson j :: ofItems rest

def ofMembers : List (String × Json) → List (String × Tree)
  | [] => []
  | (k, j) :: rest => (k, ofJson j) :: ofMembers rest

end

def readable (t : Tree) : Bool :=
  t.toJson?.isSome

end Tree

end Ensemble.Json
