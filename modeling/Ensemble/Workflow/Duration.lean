import Ensemble.Json.Basic
import Ensemble.Number.Double
import Ensemble.Text.Blank
import Ensemble.Text.Digits

/-!
Lengths of time as text: decimal numbers, each followed by its unit, that are added up.
-/

namespace Ensemble

open Ensemble.Text

structure Duration where
  nanos : Nat
  deriving DecidableEq

namespace Duration

def toJson (d : Duration) : Json :=
  .object [("nanos", .nat (d.nanos % 1000000000)), ("secs", .nat (d.nanos / 1000000000))]

inductive Fault where
  | empty
  | negative
  | missingNumber (rest : String)
  | missingUnit (number : String)
  | unknownUnit (unit : String)
  | notPositive
  | overflow
  deriving DecidableEq

def Fault.message : Fault → String
  | .empty => "duration is empty"
  | .negative => "negative durations are not allowed"
  | .missingNumber rest => "expected a number at `" ++ rest ++ "`"
  | .missingUnit number => "missing unit after `" ++ number ++ "`"
  | .unknownUnit unit => "unknown unit `" ++ unit ++ "`"
  | .notPositive => "duration must be positive"
  | .overflow => "duration is too large"

def unitNanos? (unit : List Char) : Option Nat :=
  match unit with
  | ['n', 's'] => some 1
  | ['u', 's'] => some 1000
  | ['\u00b5', 's'] => some 1000
  | ['\u03bc', 's'] => some 1000
  | ['m', 's'] => some 1000000
  | ['s'] => some 1000000000
  | ['m'] => some 60000000000
  | ['h'] => some 3600000000000
  | _ => none

/-- A number and its unit as they stand in the text; either may be empty. -/
structure Component where
  number : List Char
  unit : List Char
  deriving DecidableEq

def isNumeral (c : Char) : Bool :=
  isDigit c || c = '.'

def addChar (c : Char) : List Component → List Component
  | [] => if isNumeral c then [⟨[c], []⟩] else [⟨[], [c]⟩]
  | k :: ks =>
    if isNumeral c then ⟨c :: k.number, k.unit⟩ :: ks
    else if k.number.isEmpty then ⟨[], c :: k.unit⟩ :: ks
    else ⟨[], [c]⟩ :: k :: ks

/-- Cuts a text into longest runs of digits and points, each with the longest run of other
characters that follows it. -/
def components (cs : List Char) : List Component :=
  cs.foldr addChar []

def spell (ks : List Component) : String :=
  String.ofList (ks.flatMap fun k => k.number ++ k.unit)

/-- The double nearest to a decimal number with at least one digit and at most one point. -/
def readNumber? (cs : List Char) : Option Nat :=
  let whole := cs.takeWhile isDigit
  match cs.dropWhile isDigit with
  | [] => if whole.isEmpty then none else some (Double.ofDecimal (ofDigits whole) 0)
  | _ :: fraction =>
    if fraction.all isDigit && !(whole.isEmpty && fraction.isEmpty) then
      some (Double.ofDecimal (ofDigits (whole ++ fraction)) fraction.length)
    else none

/-- Adds components to a number of nanoseconds, in doubles; the first faulty one decides. -/
def addComponents (total : Nat) : List Component → Except Fault Nat
  | [] => .ok total
  | k :: ks =>
    match readNumber? k.number with
    | none => .error (.missingNumber (spell (k :: ks)))
    | some value =>
      if k.unit.isEmpty then .error (.missingUnit (String.ofList k.number))
      else
        match unitNanos? k.unit with
        | none => .error (.unknownUnit (String.ofList k.unit))
        | some scale => addComponents (Double.add total (Double.mul value (Double.ofNat scale))) ks

/-- The nearest whole number of nanoseconds, which must be positive and below 2^64. -/
def ofTotal (total : Nat) : Except Fault Duration :=
  if Nat.pow 2 64 * Double.one ≤ total then .error .overflow
  else
    match Double.toNatHalfUp total with
    | 0 => .error .notPositive
    | n => .ok ⟨n⟩

def readBody (body : List Char) : Except Fault Duration :=
  if body = ['0'] then .error .notPositive
  else
    match addComponents 0 (components body) with
    | .ok total => ofTotal total
    | .error fault => .error fault

/-- Reads a positive length of time; blanks may surround it and a plus sign may come first. -/
def read (text : String) : Except Fault Duration :=
  match trimChars text.toList with
  | [] => .error .empty
  | '-' :: _ => .error .negative
  | '+' :: body => readBody body
  | body => readBody body

end Duration

end Ensemble
