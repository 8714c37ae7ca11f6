import Ensemble.Json.Numeral
import Ensemble.Json.Quoted
import Ensemble.Json.Tree

/-!
Reading JSON text.  The grammar is that of RFC 8259 without any leniency: four blank characters, no
trailing commas, nothing after the value.
-/

namespace Ensemble.Json

def isSpace (c : Char) : Bool :=
  c = ' ' || c = '\t' || c = '\n' || c = '\r'

def skipSpace (cs : List Char) : List Char :=
  cs.dropWhile isSpace

def nestingLimit : Nat := 127

/-- One entry and then, after each comma, another one, up to the closing bracket.  The first
argument bounds the number of entries. -/
def readEntries {α : Type} (entry : List Char → Option (α × List Char)) (close : Char) :
    Nat → List Char → Option (List α × List Char)
  | 0, _ => none
  | n + 1, cs =>
    match entry cs with
    | none => none
    | some (a, rest) =>
      match skipSpace rest with
      | [] => none
      | c :: more =>
        if c = ',' then
          match readEntries entry close n more with
          | some (as, rest) => some (a :: as, rest)
          | none => none
        else if c = close then some ([a], more)
        else none

/-- Entries after an opening bracket; there may be none. -/
def readBracket {α : Type} (entry : List Char → Option (α × List Char)) (close : Char)
    (cs : List Char) : Option (List α × List Char) :=
  match skipSpace cs with
  | [] => none
  | c :: rest => if c = close then some ([], rest) else readEntries entry close cs.length cs

/-- The text of a quoted string, if it writes one, after the opening quote. -/
def readString (cs : List Char) : Option (Option String × List Char) :=
  match Quoted.scan? cs with
  | none => none
  | some (marks, rest) => some ((Quoted.chars? marks).map String.ofList, rest)

def readMember (value : List Char → Option (Tree × List Char)) (cs : List Char) :
    Option ((Option String × Tree) × List Char) :=
  match skipSpace cs with
  | '"' :: quoted =>
    match readString quoted with
    | none => none
    | some (key, rest) =>
      match skipSpace rest with
      | ':' :: rest =>
        match value rest with
        | none => none
        | some (t, rest) => some ((key, t), rest)
      | _ => none
  | _ => none

/-- An object with a key that writes no text is unreadable as a whole. -/
def objectTree (members : List (Option String × Tree)) : Tree :=
  match members.mapM fun m => m.1.map fun k => (k, m.2) with
  | some ms => .object ms
  | none => .unreadable

/-- A bracketed value where `allowed` more brackets may open. -/
def withinLimit (allowed : Nat) (t : Tree) : Tree :=
  if allowed = 0 then .unreadable else t

/-- Reads one value.  The first argument bounds the nesting, the second one says how many brackets
may still open before what they hold is unreadable. -/
def readTree : Nat → Nat → List Char → Option (Tree × List Char)
  | 0, _, _ => none
  | depth + 1, allowed, cs =>
    match skipSpace cs with
    | 'n' :: 'u' :: 'l' :: 'l' :: rest => some (.null, rest)
    | 't' :: 'r' :: 'u' :: 'e' :: rest => some (.bool true, rest)
    | 'f' :: 'a' :: 'l' :: 's' :: 'e' :: rest => some (.bool false, rest)
    | '"' :: quoted =>
      match readString quoted with
      | none => none
      | some (text, rest) => some (text.elim .unreadable .string, rest)
    | '[' :: inner =>
      match readBracket (readTree depth (allowed - 1)) ']' inner with
      | none => none
      | some (items, rest) => some (withinLimit allowed (.array items), rest)
    | '{' :: inner =>
      match readBracket (readMember (readTree depth (allowed - 1))) '}' inner with
      | none => none
      | some (members, rest) => some (withinLimit allowed (objectTree members), rest)
    | other =>
      match Numeral.scan? other with
      | none => none
      | some (numeral, rest) => some (numeral.value?.elim .unreadable .number, rest)

/-- What a whole text says; blanks may surround the value. -/
def Tree.ofChars? (cs : List Char) : Option Tree :=
  match readTree (cs.length + 1) nestingLimit cs with
  | some (t, rest) => if (skipSpace rest).isEmpty then some t else none
  | none => none

def Tree.ofText? (text : String) : Option Tree :=
  Tree.ofChars? text.toList

def ofChars? (cs : List Char) : Option Json :=
  (Tree.ofChars? cs).bind Tree.toJson?

def ofText? (text : String) : Option Json :=
  ofChars? text.toList

end Ensemble.Json
