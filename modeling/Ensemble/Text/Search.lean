/-!
Looking for one text inside another.
-/

namespace Ensemble.Text

/-- Whether `needle` occurs somewhere; the empty text occurs everywhere. -/
def occursIn (needle : List Char) : List Char → Bool
  | [] => needle.isEmpty
  | c :: cs => needle.isPrefixOf (c :: cs) || occursIn needle cs

def contains (text needle : String) : Bool :=
  occursIn needle.toList text.toList

end Ensemble.Text
