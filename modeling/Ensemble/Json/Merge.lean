import Ensemble.Json.Basic

/-!
Laying one JSON value over another.  Objects are united member by member; anything else replaces
what it is laid over.
-/

namespace Ensemble.Json

mutual

def merge (base overlay : Json) : Json :=
  match overlay with
  | .object layer =>
    match base with
    | .object members => .object (mergeMembers members layer)
    | _ => .object layer
  | other => other

/-- The members of an overlay laid over those of a base, one after the other; what has no member in
the base is laid over `null`. -/
def mergeMembers (members : List (String × Json)) : List (String × Json) → List (String × Json)
  | [] => members
  | (k, j) :: rest =>
    mergeMembers (Ordered.alter k (fun old => merge (old.getD .null) j) members) rest

end

end Ensemble.Json
