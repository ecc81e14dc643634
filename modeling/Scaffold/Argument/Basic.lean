import Scaffold.Text.Basic

/-!
# Arguments

An argument is a name with an optional default. A placeholder token spells one,
and a template declares those that its entries spell. Collecting arguments keeps
each name once, in the order of first occurrence, and the first default that is
given for it.
-/

namespace Scaffold

/-- A name with an optional default value. -/
structure Argument where
  name : Text
  default? : Option Text
  deriving DecidableEq

namespace Argument

/-- Whether a value must be supplied. -/
def isRequired (a : Argument) : Bool := a.default?.isNone

/-- Add an argument to those collected so far. A name that is known only takes
over the default, and only if it has none yet. -/
def note (a : Argument) : List Argument → List Argument
  | [] => [a]
  | known :: more =>
    if known.name = a.name then
      { known with default? := known.default? <|> a.default? } :: more
    else known :: note a more

/-- The arguments of a list of occurrences. -/
def collect (occurrences : List Argument) : List Argument :=
  occurrences.foldl (fun known a => note a known) []

/-- The names of a list of occurrences, each once, in the order of first
occurrence. -/
def distinctNames (names : List Text) : List Text :=
  names.foldl (fun known name => if name ∈ known then known else known ++ [name]) []

@[simp] theorem collect_nil : collect [] = [] := rfl

/-- Collecting one more occurrence is noting it last. -/
theorem collect_append_singleton (occurrences : List Argument) (a : Argument) :
    collect (occurrences ++ [a]) = note a (collect occurrences) := by
  simp [collect]

end Argument

end Scaffold
