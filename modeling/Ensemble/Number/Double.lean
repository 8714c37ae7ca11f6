/-!
Double precision numbers without sign, as exact natural numbers.  Every finite double is a whole
multiple of the smallest one, 2^-1074, and is kept here as that multiple.  An operation computes the
exact rational result and rounds it once, to the nearest double and to the even one of two equally
near ones.
-/

namespace Ensemble.Double

/-- How many of the smallest doubles make 1. -/
def one : Nat := Nat.pow 2 1074

/-- The first magnitude that is too large: 2^1024. -/
def overflow : Nat := Nat.pow 2 1024 * one

/-- The quotient rounded to the nearest whole number, a half going to the even neighbour. -/
def roundQuotient (num den : Nat) : Nat :=
  let q := num / den
  let twice := 2 * (num % den)
  if den < twice || (twice = den && q % 2 = 1) then q + 1 else q

/-- How many low bits of `n` have no place among the 53 that a double keeps. -/
def surplusBits (n : Nat) : Nat :=
  n.log2 + 1 - 53

/-- The magnitude nearest to a quotient: at most 53 of its bits are kept. -/
def round (num den : Nat) : Nat :=
  let unit := Nat.pow 2 (surplusBits (num / den))
  roundQuotient num (den * unit) * unit

def ofNat (n : Nat) : Nat := round (n * one) 1

def add (a b : Nat) : Nat := round (a + b) 1

def mul (a b : Nat) : Nat := round (a * b) one

def div (a b : Nat) : Nat := round (a * one) b

/-- The double nearest to a decimal: `digits` divided by ten to the power `places`. -/
def ofDecimal (digits places : Nat) : Nat := round (digits * one) (Nat.pow 10 places)

/-- The whole number nearest to a magnitude, a half going up. -/
def toNatHalfUp (a : Nat) : Nat := (2 * a + one) / (2 * one)

end Ensemble.Double
