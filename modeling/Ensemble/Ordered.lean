/-!
Ordered maps as lists of pairs whose keys strictly increase.  Looking up, setting and altering
keep to the first place where the key can stand.
-/

namespace Ensemble.Ordered

variable {κ α : Type} [DecidableEq κ]

def get? (k : κ) : List (κ × α) → Option α
  | [] => none
  | (k', a) :: rest => if k = k' then some a else get? k rest

variable [LT κ] [DecidableLT κ]

/-- Puts at a key what `f` makes of the value that was there. -/
def alter (k : κ) (f : Option α → α) : List (κ × α) → List (κ × α)
  | [] => [(k, f none)]
  | (k', a) :: rest =>
    if k = k' then (k, f (some a)) :: rest
    else if k < k' then (k, f none) :: (k', a) :: rest
    else (k', a) :: alter k f rest

def insert (k : κ) (a : α) (m : List (κ × α)) : List (κ × α) :=
  alter k (fun _ => a) m

/-- The map of a list of pairs; of two pairs with one key the later one stays. -/
def ofList (pairs : List (κ × α)) : List (κ × α) :=
  pairs.foldl (fun m p => insert p.1 p.2 m) []

def Sorted : List (κ × α) → Prop
  | [] => True
  | (k, _) :: rest => (∀ p ∈ rest, k < p.1) ∧ Sorted rest

end Ensemble.Ordered
