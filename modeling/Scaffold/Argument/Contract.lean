import Scaffold.Argument.Basic
import Scaffold.Value.Assignment

/-!
# Contracts

The contract of a template lists its arguments in order. Resolving it gives every
argument its final value: the one supplied for its name, else its default.
Values for other names are left out of the result.
-/

namespace Scaffold

/-- The arguments of a template, in order. -/
abbrev Contract := List Argument

namespace Contract

/-- The argument of a name. -/
def get? (c : Contract) (name : Text) : Option Argument := c.find? fun a => a.name = name

/-- The names in order. -/
def names (c : Contract) : List Text := c.map Argument.name

/-- The final values of the arguments, added to those found so far. -/
def resolveOnto (values found : Values) : Contract → Except Error Values
  | [] => .ok found
  | a :: more =>
    match values.valueOf a with
    | .error e => .error e
    | .ok value => resolveOnto values (found.insert a.name value) more

/-- The final value of every argument. The first argument that has neither a
value nor a default is the one that is reported. -/
def resolve (c : Contract) (values : Values) : Except Error Values :=
  resolveOnto values SortedMap.empty c

@[simp] theorem resolve_nil (values : Values) : resolve [] values = .ok SortedMap.empty := rfl

end Contract

end Scaffold
