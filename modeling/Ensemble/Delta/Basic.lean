/-!
Deltas: the fragments of a model's answer in the order in which they arrive.  A whole answer
collapses into one delta.
-/

namespace Ensemble

structure Usage where
  inputTokens : UInt64 := 0
  outputTokens : UInt64 := 0
  deriving DecidableEq

/-- A piece of one tool call, which is known by its position in the answer. -/
structure CallFragment where
  index : UInt32
  id : Option String := none
  name : Option String := none
  arguments : Option String := none
  deriving DecidableEq

structure Delta where
  text : Option String := none
  toolCalls : List CallFragment := []
  finishReason : Option String := none
  usage : Option Usage := none
  deriving DecidableEq

namespace Delta

def ofText (text : String) : Delta := { text := some text }

def ofFinish (reason : String) : Delta := { finishReason := some reason }

/-- The text a delta carries; none counts as empty. -/
def chunk (d : Delta) : String :=
  d.text.getD ""

def nonEmpty? (s : String) : Option String :=
  if s.isEmpty then none else some s

/-- The newer of two reports, if there is a newer one. -/
def latest {α : Type} (known newer : Option α) : Option α :=
  newer.or known

/-- Takes one more delta into a collapsed one: texts and fragments keep their order, and the last
finish signal that is not empty and the last usage report count. -/
def absorb (whole d : Delta) : Delta :=
  { text := nonEmpty? (whole.chunk ++ d.chunk)
    toolCalls := whole.toolCalls ++ d.toolCalls
    finishReason := latest whole.finishReason (d.finishReason.bind nonEmpty?)
    usage := latest whole.usage d.usage }

def complete (deltas : List Delta) : Delta :=
  deltas.foldl absorb {}

end Delta

end Ensemble
