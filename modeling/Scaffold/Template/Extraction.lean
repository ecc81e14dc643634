import Scaffold.Argument.Contract
import Scaffold.Placeholder.Token
import Scaffold.Template.Entry

/-!
# Extraction of arguments

The contract of a template is what the tokens in the names and contents of its
entries declare. A content is read line by line, and every string that is read
declares each name once. Two strings may repeat a default but not contradict one
another; the first default that differs from an earlier one for its name is
reported with the places of both.
-/

namespace Scaffold

/-- An argument and the place where it is declared. -/
structure Occurrence where
  argument : Argument
  source : Source
  deriving DecidableEq

namespace Entry

/-- What the name of an entry declares. -/
def nameArguments (e : Entry) : List Argument := Placeholder.declared e.name

/-- What the lines of its content declare, one after the other. -/
def contentArguments (e : Entry) : List Argument :=
  match e.content with
  | none => []
  | some content => (Text.split '\n' content).flatMap Placeholder.declared

/-- What an entry declares and where, the name first. -/
def occurrences (e : Entry) : List Occurrence :=
  e.nameArguments.map (fun a => ⟨a, e.path, .name⟩)
    ++ e.contentArguments.map (fun a => ⟨a, e.path, .content⟩)

/-- The entry with the names that it declares. -/
def withArgumentNames (e : Entry) : Entry :=
  { e with
    argumentNames := Argument.distinctNames (e.occurrences.map fun o => o.argument.name) }

end Entry

namespace Contract

/-- The first default of each name and where it was given. -/
abbrev Defaults := SortedMap Text (Text × Source)

/-- Go through the occurrences and refuse the first default that differs from the
one already known for its name. -/
def checkDefaults (known : Defaults) : List Occurrence → Except Error Unit
  | [] => .ok ()
  | o :: more =>
    match o.argument.default? with
    | none => checkDefaults known more
    | some given =>
      match known.get? o.argument.name with
      | none => checkDefaults (known.insert o.argument.name (given, o.source)) more
      | some (first, source) =>
        if first = given then checkDefaults known more
        else .error (.conflictingDefaults o.argument.name source o.source)

/-- The contract of a list of entries. -/
def extract (entries : List Entry) : Except Error Contract :=
  let occurrences := entries.flatMap Entry.occurrences
  match checkDefaults SortedMap.empty occurrences with
  | .error e => .error e
  | .ok _ => .ok (Argument.collect (occurrences.map Occurrence.argument))

end Contract

end Scaffold
