import Ensemble.Number.Double
import Ensemble.Text.Digits

/-!
The shortest decimal that reads back as a given double, and how it is laid out.
-/

namespace Ensemble.Double

/-- The numbers that round to one double, as multiples of a quarter of the smallest double.  The
ends belong to the interval when the significand is even. -/
structure Interval where
  low : Nat
  value : Nat
  high : Nat
  closed : Bool

/-- Below a power of two the doubles lie twice as close as above it. -/
def interval (a : Nat) : Interval :=
  let unit := Nat.pow 2 (surplusBits a)
  let below := if a = Nat.pow 2 52 * unit && unit ≠ 1 then unit else 2 * unit
  { low := 4 * a - below, value := 4 * a, high := 4 * a + 2 * unit, closed := a / unit % 2 = 0 }

/-- A decimal: `digits` times ten to the power `exponent`. -/
structure Decimal where
  digits : Nat
  exponent : Int

/-- A decimal as a quotient in quarters of the smallest double. -/
def Decimal.quarters (d : Decimal) : Nat × Nat :=
  (d.digits * Nat.pow 10 d.exponent.toNat * (4 * one), Nat.pow 10 (-d.exponent).toNat)

def Interval.contains (i : Interval) (d : Decimal) : Bool :=
  let (num, den) := d.quarters
  if i.closed then i.low * den ≤ num && num ≤ i.high * den
  else i.low * den < num && num < i.high * den

/-- Of the two neighbours of the value on the grid of an exponent, one that lies in the interval,
the nearer one if both do. -/
def Interval.onGrid? (i : Interval) (exponent : Int) : Option Decimal :=
  let step := Nat.pow 10 exponent.toNat * (4 * one)
  let scaled := i.value * Nat.pow 10 (-exponent).toNat
  let lower : Decimal := ⟨scaled / step, exponent⟩
  let upper : Decimal := ⟨scaled / step + 1, exponent⟩
  let beyond := scaled % step
  if i.contains lower && (!i.contains upper || 2 * beyond < step ||
      (2 * beyond = step && lower.digits % 2 = 0)) then some lower
  else if i.contains upper then some upper
  else none

/-- The exponent of the leading decimal digit of a positive magnitude. -/
def leadingExponent (a : Nat) : Int :=
  if one ≤ a then ((Text.toDigits (a / one)).length : Int) - 1
  else -((Text.toDigits ((one - 1) / a)).length : Int)

/-- The first of the grids of `count` digits, one more digit, and so on that holds a hit. -/
def Interval.search (i : Interval) (lead : Int) : Nat → Nat → Decimal
  | 0, _ => ⟨0, 0⟩
  | fuel + 1, count =>
    match i.onGrid? (lead + 1 - (count : Int)) with
    | some d => d
    | none => search i lead fuel (count + 1)

/-- Seventeen digits always suffice, so the search ends by then. -/
def shortest (a : Nat) : Decimal :=
  (interval a).search (leadingExponent a) 18 1

/-- Zeros at the end of the digits move into the exponent. -/
def Decimal.trimmed (d : Decimal) : Nat → Decimal
  | 0 => d
  | fuel + 1 =>
    if d.digits ≠ 0 && d.digits % 10 = 0 then trimmed ⟨d.digits / 10, d.exponent + 1⟩ fuel else d

/-- How a decimal is laid out: the point of the number stands after at most `wholePlaces` digits and
before at most `leadingZeros` zeros, otherwise an exponent is written. -/
structure Layout where
  wholePlaces : Int
  leadingZeros : Int

/-- Positional from 1e-5 up to below 1e16, with `.0` after a whole number. -/
def plainLayout : Layout := { wholePlaces := 16, leadingZeros := 5 }

def zeros (n : Int) : List Char := List.replicate n.toNat '0'

def intDigits (n : Int) : List Char :=
  if n < 0 then '-' :: Text.toDigits n.natAbs else Text.toDigits n.natAbs

def Layout.write (l : Layout) (d : Decimal) : List Char :=
  let digits := Text.toDigits d.digits
  let point := (digits.length : Int) + d.exponent
  if 0 ≤ d.exponent && point ≤ l.wholePlaces then digits ++ zeros d.exponent ++ ['.', '0']
  else if 0 < point && point ≤ l.wholePlaces then
    digits.take point.toNat ++ '.' :: digits.drop point.toNat
  else if -l.leadingZeros < point && point ≤ 0 then '0' :: '.' :: zeros (-point) ++ digits
  else
    let fraction := if digits.length = 1 then [] else '.' :: digits.drop 1
    digits.take 1 ++ fraction ++ 'e' :: intDigits (point - 1)

def write (a : Nat) : List Char :=
  if a = 0 then ['0', '.', '0'] else plainLayout.write ((shortest a).trimmed 18)

end Ensemble.Double
