import Scaffold.Argument.Contract

/-!
# Value buffers

A value buffer is a text in which a user fills in values: a header of comment
lines and then one line `name: value` for each argument. Reading it back skips
blank lines and comments and cuts every other line at its first colon; white
space around the two sides does not count, and an empty value leaves its name
unset.
-/

namespace Scaffold

/-- What a buffer says about each name: a value, or that it has none. -/
abbrev EditedValues := SortedMap Text (Option Text)

namespace EditedValues

/-- The names without a value, in ascending order. -/
def missing (edited : EditedValues) : List Text :=
  (edited.entries.filter fun e => e.2.isNone).map Prod.fst

/-- Whether some name has no value. -/
def hasMissing (edited : EditedValues) : Bool := edited.entries.any fun e => e.2.isNone

/-- The values that are set. -/
def toValues (edited : EditedValues) : Values := edited.filterMap id

/-- A value is asked for exactly when some name is without one. -/
theorem missing_eq_nil_iff (edited : EditedValues) :
    edited.missing = [] ↔ edited.hasMissing = false := by
  simp [missing, hasMissing, List.filter_eq_nil_iff]

end EditedValues

namespace Buffer

/-- The comment lines at the front of every buffer. -/
def header : Text :=
  ("# Please provide values for the following variables.\n" ++
    "# Lines starting with '#' are ignored; leave a value empty to unset it.\n").toList

/-- The value that the line of an argument starts out with: the current one,
else the default, else none. -/
def shownValue (current : Values) (a : Argument) : Text :=
  ((current.get? a.name).or a.default?).getD []

/-- The line of an argument. -/
def line (current : Values) (a : Argument) : Text :=
  a.name ++ ':' :: ' ' :: shownValue current a ++ ['\n']

/-- The buffer for a contract. -/
def render (c : Contract) (current : Values) : Text := header ++ c.flatMap (line current)

/-- What one line adds to the values read so far. -/
def readLine (found : EditedValues) (line : Text) : Except Error EditedValues :=
  let trimmed := Text.trim line
  if trimmed = [] ∨ trimmed.head? = some '#' then .ok found
  else match Text.cut? ':' trimmed with
    | none => .error (.malformedLine trimmed)
    | some (name, value) =>
      let value := Text.trim value
      .ok (found.insert (Text.trim name) (if value = [] then none else some value))

/-- Read lines in order, onto the values read so far. -/
def readLines (found : EditedValues) : List Text → Except Error EditedValues
  | [] => .ok found
  | line :: more =>
    match readLine found line with
    | .error e => .error e
    | .ok found => readLines found more

/-- Read a buffer. -/
def parse (t : Text) : Except Error EditedValues := readLines SortedMap.empty (Text.lines t)

@[simp] theorem parse_nil : parse [] = .ok SortedMap.empty := rfl

end Buffer

end Scaffold
