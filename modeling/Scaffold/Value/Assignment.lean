import Scaffold.Argument.Basic
import Scaffold.Error
import Scaffold.SortedMap
import Scaffold.Text.Blank

/-!
# Values and assignments

Values are a finite map from names to texts. The value of an argument is the one
given for its name, else its default. An assignment `NAME=VALUE` gives
one value: everything up to the first equals sign, without the white space
around it, is the name, and everything behind it is the value as it stands.
-/

namespace Scaffold

/-- The values of some names. -/
abbrev Values := SortedMap Text Text

namespace Values

/-- The value of an argument, which must have a default if none is given. -/
def valueOf (values : Values) (a : Argument) : Except Error Text :=
  match values.get? a.name with
  | some value => .ok value
  | none =>
    match a.default? with
    | some default => .ok default
    | none => .error (.missingArgument a.name)

/-- Read an assignment. -/
def parseAssignment (t : Text) : Except Error (Text × Text) :=
  match Text.cut? '=' t with
  | some (name, value) =>
    if Text.trim name = [] then .error (.invalidAssignment t) else .ok (Text.trim name, value)
  | none => .error (.invalidAssignment t)

/-- Read assignments in order, a later one for a name replacing an earlier one. -/
def parseAssignments (ts : List Text) : Except Error Values :=
  ts.foldlM (fun values t => do
    let (name, value) ← parseAssignment t
    return values.insert name value) SortedMap.empty

end Values

end Scaffold
