/-!
Decimal digits and the numbers they write.
-/

namespace Ensemble.Text

def isDigit (c : Char) : Bool :=
  '0' ≤ c && c ≤ '9'

def digitValue (c : Char) : Nat :=
  c.toNat - '0'.toNat

/-- The number that digits write, most significant first; the empty list writes 0. -/
def ofDigits (cs : List Char) : Nat :=
  cs.foldl (fun n c => 10 * n + digitValue c) 0

def digitOf (n : Nat) : Char :=
  Char.ofNat ('0'.toNat + n % 10)

/-- The digits of a number without leading zeros; 0 is written `0`. -/
def toDigits (n : Nat) : List Char :=
  if n < 10 then [digitOf n] else toDigits (n / 10) ++ [digitOf n]
termination_by n

/-- Reads a number of digits only, leading zeros allowed, after at most one plus sign; the number
has to be below the bound. -/
def unsignedBelow? (bound : Nat) (s : String) : Option Nat :=
  let body := match s.toList with
    | '+' :: rest => rest
    | cs => cs
  if body.isEmpty || !body.all isDigit then none
  else
    let n := ofDigits body
    if n < bound then some n else none

end Ensemble.Text
