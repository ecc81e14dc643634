/-!
# Faults of a JSON text

A JSON text is read in one pass from left to right, and the first problem that
is met decides which of three faults it has.
-/

namespace Scaffold

namespace Json

/-- Why a JSON text was refused. -/
inductive Fault where
  /-- The text is not JSON. -/
  | malformed
  /-- The text is JSON so far, but not of the expected shape. -/
  | mismatch
  /-- The text ends too early. -/
  | truncated
  deriving DecidableEq, Repr

end Json

end Scaffold
