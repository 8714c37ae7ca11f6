import Ensemble.Json.Basic
import Ensemble.Number.Double
import Ensemble.Text.Digits

/-!
Numbers as JSON text writes them, and the numbers they denote.  A numeral without fraction and
exponent that fits 64 bits is a whole number; any other one is a double, computed from a 64-bit
significand scaled by a power of ten in double arithmetic.
-/

namespace Ensemble.Json

open Ensemble.Text

structure Numeral where
  negative : Bool
  whole : List Char
  -- The digits after the point, if there is a point.
  fraction : Option (List Char)
  -- The sign and the digits of the exponent, if there is one; `true` is a minus sign.
  exponent : Option (Bool × List Char)

namespace Numeral

def spanDigits (cs : List Char) : List Char × List Char :=
  (cs.takeWhile isDigit, cs.dropWhile isDigit)

/-- The whole part has no leading zero unless it is `0`. -/
def scanWhole? (cs : List Char) : Option (List Char × List Char) :=
  match spanDigits cs with
  | ([], _) => none
  | ('0' :: _ :: _, _) => none
  | r => some r

def scanFraction? : List Char → Option (Option (List Char) × List Char)
  | '.' :: cs =>
    match spanDigits cs with
    | ([], _) => none
    | (ds, rest) => some (some ds, rest)
  | cs => some (none, cs)

def scanSign : List Char → Bool × List Char
  | '+' :: cs => (false, cs)
  | '-' :: cs => (true, cs)
  | cs => (false, cs)

def scanExponent? : List Char → Option (Option (Bool × List Char) × List Char)
  | [] => some (none, [])
  | c :: cs =>
    if c = 'e' || c = 'E' then
      let (minus, body) := scanSign cs
      match spanDigits body with
      | ([], _) => none
      | (ds, rest) => some (some (minus, ds), rest)
    else some (none, c :: cs)

def scan? (cs : List Char) : Option (Numeral × List Char) :=
  let (negative, body) := match cs with
    | '-' :: rest => (true, rest)
    | _ => (false, cs)
  match scanWhole? body with
  | none => none
  | some (whole, afterWhole) =>
    match scanFraction? afterWhole with
    | none => none
    | some (fraction, afterFraction) =>
      match scanExponent? afterFraction with
      | none => none
      | some (exponent, rest) => some (⟨negative, whole, fraction, exponent⟩, rest)

/-- Extends a significand by digits as long as it stays below 2^64; returns it with the number of
digits that were used. -/
def accumulate (significand : Nat) : List Char → Nat × Nat
  | [] => (significand, 0)
  | d :: ds =>
    let next := 10 * significand + digitValue d
    if next < Nat.pow 2 64 then
      let (total, used) := accumulate next ds
      (total, used + 1)
    else (significand, 0)

/-- The significand and the power of ten that scales it: a digit of the whole part that was left out
raises the power, a used one of the fraction lowers it. -/
def scaled (n : Numeral) : Nat × Int :=
  let (head, usedWhole) := accumulate 0 n.whole
  let (significand, usedFraction) := accumulate head (n.fraction.getD [])
  let shift := (n.whole.length - usedWhole : Int) - usedFraction
  match n.exponent with
  | none => (significand, shift)
  | some (minus, ds) => (significand, if minus then shift - ofDigits ds else shift + ofDigits ds)

def largestPower : Nat := 308

/-- Divides by a power of ten, in steps of 10^308; a number that has become 0 stays 0. -/
def shrink (a : Nat) (power : Nat) : Nat :=
  if power ≤ largestPower then Double.div a (Double.ofNat (Nat.pow 10 power))
  else if a = 0 then 0
  else shrink (Double.div a (Double.ofNat (Nat.pow 10 largestPower))) (power - largestPower)
termination_by power
decreasing_by unfold largestPower at *; omega

/-- The magnitude of a significand times a power of ten, unless it is beyond the largest double. -/
def magnitude? (significand : Nat) (power : Int) : Option Nat :=
  let a := Double.ofNat significand
  if power < 0 then some (shrink a power.natAbs)
  else if a = 0 then some 0
  else if power ≤ largestPower then
    let product := Double.mul a (Double.ofNat (Nat.pow 10 power.toNat))
    if product < Double.overflow then some product else none
  else none

/-- The number a numeral denotes; `-0` is a double, so that its sign is kept. -/
def value? (n : Numeral) : Option Number :=
  let whole : Int := ofDigits n.whole
  let signed := if n.negative then -whole else whole
  if n.fraction.isNone && n.exponent.isNone && Number.inRange signed &&
      !(n.negative && whole = 0) then
    some (.int signed)
  else
    let (significand, power) := n.scaled
    (magnitude? significand power).map (.double n.negative)

end Numeral

end Ensemble.Json
