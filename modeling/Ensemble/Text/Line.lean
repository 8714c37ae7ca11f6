/-!
Lines of a text.  A line ends at a line feed or at the end of the text; one carriage return right
before the line feed belongs to the line end, and nothing after the last line feed is no line.
-/

namespace Ensemble.Text

/-- The pieces between separators: always one more than there are separators. -/
def pieces (separator : Char) : List Char → List (List Char)
  | [] => [[]]
  | c :: cs =>
    if c = separator then [] :: pieces separator cs
    else
      match pieces separator cs with
      | [] => [[c]]
      | p :: ps => (c :: p) :: ps

def dropReturn (line : List Char) : List Char :=
  if line.getLast? = some '\r' then line.dropLast else line

/-- The lines among the pieces between line feeds: the last piece is a line only if it is not empty,
and it keeps its carriage return, since no line feed follows. -/
def linesOfPieces : List (List Char) → List (List Char)
  | [] => []
  | [last] => if last.isEmpty then [] else [last]
  | p :: ps => dropReturn p :: linesOfPieces ps

def lines (s : String) : List String :=
  (linesOfPieces (pieces '\n' s.toList)).map String.ofList

end Ensemble.Text
