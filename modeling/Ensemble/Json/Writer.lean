import Ensemble.Json.Basic
import Ensemble.Json.Quoted
import Ensemble.Number.Shortest

/-!
Writing JSON text: the compact form, without any blanks, and the indented one.
-/

namespace Ensemble.Json

def Number.write : Number → List Char
  | .int n => Double.intDigits n
  | .double negative magnitude =>
    if negative then '-' :: Double.write magnitude else Double.write magnitude

mutual

def write : Json → List Char
  | .null => ['n', 'u', 'l', 'l']
  | .bool true => ['t', 'r', 'u', 'e']
  | .bool false => ['f', 'a', 'l', 's', 'e']
  | .number n => n.write
  | .string s => Quoted.write s
  | .array items => '[' :: writeItems items ++ [']']
  | .object members => '{' :: writeMembers members ++ ['}']

def writeItems : List Json → List Char
  | [] => []
  | [j] => write j
  | j :: rest => write j ++ ',' :: writeItems rest

def writeMembers : List (String × Json) → List Char
  | [] => []
  | [(k, j)] => Quoted.write k ++ ':' :: write j
  | (k, j) :: rest => Quoted.write k ++ ':' :: write j ++ ',' :: writeMembers rest

end

def toText (j : Json) : String :=
  String.ofList j.write

/-- A line break and the indentation of a level, two blanks each. -/
def newline (level : Nat) : List Char :=
  '\n' :: List.replicate (2 * level) ' '

mutual

/-- The indented text of a value at a level of indentation. -/
def writeIndented (level : Nat) : Json → List Char
  | .null => ['n', 'u', 'l', 'l']
  | .bool true => ['t', 'r', 'u', 'e']
  | .bool false => ['f', 'a', 'l', 's', 'e']
  | .number n => n.write
  | .string s => Quoted.write s
  | .array [] => ['[', ']']
  | .array (j :: rest) =>
    '[' :: newline (level + 1) ++ writeIndented (level + 1) j ++ indentedItems (level + 1) rest ++
      newline level ++ [']']
  | .object [] => ['{', '}']
  | .object ((k, j) :: rest) =>
    '{' :: newline (level + 1) ++ Quoted.write k ++ ':' :: ' ' :: writeIndented (level + 1) j ++
      indentedMembers (level + 1) rest ++ newline level ++ ['}']

def indentedItems (level : Nat) : List Json → List Char
  | [] => []
  | j :: rest => ',' :: newline level ++ writeIndented level j ++ indentedItems level rest

def indentedMembers (level : Nat) : List (String × Json) → List Char
  | [] => []
  | (k, j) :: rest =>
    ',' :: newline level ++ Quoted.write k ++ ':' :: ' ' :: writeIndented level j ++
      indentedMembers level rest

end

def toIndentedText (j : Json) : String :=
  String.ofList (writeIndented 0 j)

end Ensemble.Json
