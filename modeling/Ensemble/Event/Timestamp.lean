import Ensemble.Text.Blank
import Ensemble.Text.Digits

/-!
Moments of universal time and their text.  Days are counted in the Gregorian calendar, extended to
all years.
-/

namespace Ensemble

open Ensemble.Text

/-- Seconds since the start of 1970 and nanoseconds within the second; from 10^9 nanoseconds on,
they lie in a leap second that follows. -/
structure Timestamp where
  seconds : Int
  nanos : Nat
  deriving DecidableEq

namespace Timestamp

def isLeapYear (y : Int) : Bool :=
  y % 4 = 0 && (y % 100 ≠ 0 || y % 400 = 0)

def daysInMonth (y : Int) (m : Nat) : Nat :=
  if m = 2 then (if isLeapYear y then 29 else 28)
  else if m = 4 || m = 6 || m = 9 || m = 11 then 30
  else 31

/-- Days from the start of 1970 to a date, counted in years that begin in March. -/
def daysOfDate (y : Int) (m d : Nat) : Int :=
  let year := if m ≤ 2 then y - 1 else y
  let era := year.fdiv 400
  let yearOfEra := year - era * 400
  let month : Int := if m ≤ 2 then m + 9 else m - 3
  let dayOfYear := (153 * month + 2) / 5 + d - 1
  let dayOfEra := yearOfEra * 365 + yearOfEra / 4 - yearOfEra / 100 + dayOfYear
  era * 146097 + dayOfEra - 719468

def dateOfDays (days : Int) : Int × Nat × Nat :=
  let z := days + 719468
  let era := z.fdiv 146097
  let dayOfEra := z - era * 146097
  let yearOfEra :=
    (dayOfEra - dayOfEra / 1460 + dayOfEra / 36524 - dayOfEra / 146096) / 365
  let dayOfYear := dayOfEra - (365 * yearOfEra + yearOfEra / 4 - yearOfEra / 100)
  let month := (5 * dayOfYear + 2) / 153
  let day := dayOfYear - (153 * month + 2) / 5 + 1
  let m := if month < 10 then month + 3 else month - 9
  let y := yearOfEra + era * 400
  (if m ≤ 2 then y + 1 else y, m.toNat, day.toNat)

/-- Digits with zeros in front up to a width. -/
def padded (width n : Nat) : List Char :=
  let digits := toDigits n
  List.replicate (width - digits.length) '0' ++ digits

/-- Four digits, or a sign and at least four digits outside the years 0 to 9999. -/
def writeYear (y : Int) : List Char :=
  if 0 ≤ y && y ≤ 9999 then padded 4 y.toNat
  else (if y < 0 then '-' else '+') :: padded 4 y.natAbs

/-- No fraction, or as many of three, six and nine places as it needs. -/
def writeFraction (nanos : Nat) : List Char :=
  if nanos = 0 then []
  else if nanos % 1000000 = 0 then '.' :: padded 3 (nanos / 1000000)
  else if nanos % 1000 = 0 then '.' :: padded 6 (nanos / 1000)
  else '.' :: padded 9 nanos

def write (t : Timestamp) : String :=
  let days := t.seconds.fdiv 86400
  let rest := (t.seconds - days * 86400).toNat
  let (y, m, d) := dateOfDays days
  let leap := t.nanos / 1000000000
  String.ofList
    (writeYear y ++ '-' :: padded 2 m ++ '-' :: padded 2 d ++
      'T' :: padded 2 (rest / 3600) ++ ':' :: padded 2 (rest / 60 % 60) ++
      ':' :: padded 2 (rest % 60 + leap) ++ writeFraction (t.nanos - leap * 1000000000) ++ ['Z'])

/-- A number of one digit or more, but of no more than `width`, and the rest; blanks may come
first. -/
def scanNumber? (width : Nat) (cs : List Char) : Option (Nat × List Char) :=
  let body := dropBlanks cs
  let digits := (body.take width).takeWhile isDigit
  if digits.isEmpty then none else some (ofDigits digits, body.drop digits.length)

/-- A year: four digits at most, or a sign and any number of digits. -/
def scanYear? (cs : List Char) : Option (Int × List Char) :=
  match dropBlanks cs with
  | '-' :: body =>
    let digits := body.takeWhile isDigit
    if digits.isEmpty then none else some (-(ofDigits digits : Int), body.drop digits.length)
  | '+' :: body =>
    let digits := body.takeWhile isDigit
    if digits.isEmpty then none else some ((ofDigits digits : Int), body.drop digits.length)
  | body => (scanNumber? 4 body).map fun r => ((r.1 : Int), r.2)

/-- Drops blanks and then the given mark. -/
def scanMark? (mark : Char) (cs : List Char) : Option (List Char) :=
  match dropBlanks cs with
  | [] => none
  | c :: rest => if c = mark then some rest else none

/-- A fraction of a second in nanoseconds; places after the ninth are dropped. -/
def scanFraction? : List Char → Option (Nat × List Char)
  | '.' :: cs =>
    let digits := cs.takeWhile isDigit
    if digits.isEmpty then none
    else
      let kept := digits.take 9
      some (ofDigits kept * Nat.pow 10 (9 - kept.length), cs.drop digits.length)
  | cs => some (0, cs)

/-- The word for universal time, in any case of its letters. -/
def scanUniversal? : List Char → Option (List Char)
  | u :: t :: c :: rest =>
    if u.toLower = 'u' && t.toLower = 't' && c.toLower = 'c' then some rest else none
  | _ => none

/-- A signed distance from universal time in seconds: hours and minutes of two digits each. -/
def scanDistance? (cs : List Char) : Option (Int × List Char) :=
  match cs with
  | [] => none
  | sign :: body =>
    let negative := sign = '-' || sign = '\u2212'
    if !negative && sign ≠ '+' then none
    else
      match body with
      | h1 :: h2 :: rest =>
        match rest.dropWhile fun c => c = ':' || isBlank c with
        | m1 :: m2 :: rest =>
          if isDigit h1 && isDigit h2 && isDigit m1 && isDigit m2 && m1 ≤ '5' then
            let seconds : Int := ofDigits [h1, h2] * 3600 + ofDigits [m1, m2] * 60
            some (if negative then -seconds else seconds, rest)
          else none
        | _ => none
      | _ => none

def scanOffset? (cs : List Char) : Option (Int × List Char) :=
  let body := dropBlanks cs
  match scanUniversal? body with
  | some rest => some (0, rest)
  | none =>
    match body with
    | 'Z' :: rest => some (0, rest)
    | 'z' :: rest => some (0, rest)
    | other => scanDistance? other

def yearInRange (y : Int) : Bool :=
  -262143 ≤ y && y ≤ 262142

def read? (text : String) : Option Timestamp := do
  let (y, cs) ← scanYear? text.toList
  let cs ← scanMark? '-' cs
  let (m, cs) ← scanNumber? 2 cs
  let cs ← scanMark? '-' cs
  let (d, cs) ← scanNumber? 2 cs
  let cs ← match cs with
    | 'T' :: rest => some rest
    | 't' :: rest => some rest
    | ' ' :: rest => some rest
    | _ => none
  let (hour, cs) ← scanNumber? 2 cs
  let cs ← scanMark? ':' cs
  let (minute, cs) ← scanNumber? 2 cs
  let cs ← scanMark? ':' cs
  let (second, cs) ← scanNumber? 2 cs
  let (fraction, cs) ← scanFraction? cs
  let (offset, cs) ← scanOffset? cs
  guard (dropBlanks cs).isEmpty
  guard (yearInRange y && 1 ≤ m && m ≤ 12 && 1 ≤ d && d ≤ daysInMonth y m)
  guard (hour < 24 && minute < 60 && second ≤ 60 && offset.natAbs < 86400)
  let leap := second / 60
  let seconds : Int :=
    daysOfDate y m d * 86400 + hour * 3600 + minute * 60 + (second - leap) - offset
  guard (yearInRange (dateOfDays (seconds.fdiv 86400)).1)
  return ⟨seconds, fraction + leap * 1000000000⟩

end Timestamp

end Ensemble
