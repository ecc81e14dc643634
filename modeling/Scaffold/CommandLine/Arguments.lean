import Scaffold.Text.Basic

/-!
# Command line arguments

A command line is a sequence of flags and of options with a value, which stands
behind an equals sign or in the next argument. An argument that starts with a dash
is no value, unless it is the dash alone. Flags and options may be given once,
apart from `--ignore` and `--set`, and there are no other arguments.

Exactly one of the five operations has to be asked for. A request for help or for
the version ends the reading at once.
-/

namespace Scaffold

namespace CommandLine

/-- What the arguments ask for, as they are read. -/
structure Arguments where
  add : Bool
  update : Bool
  delete : Bool
  list : Bool
  instantiate : Bool
  name : Option Text
  projectDir : Option Text
  templateDir : Option Text
  ignore : List Text
  assignments : List Text
  noEdit : Bool
  verbose : Bool

/-- What comes of reading arguments. -/
inductive Reading where
  | help
  | version
  /-- The arguments are not understood. -/
  | misused
  | accepted (args : Arguments)

namespace Arguments

/-- Nothing is asked for. -/
def blank : Arguments :=
  ⟨false, false, false, false, false, none, none, none, [], [], false, false⟩

/-- Set a flag, if it is one and not set yet. -/
def setFlag? (a : Arguments) (flag : Text) : Option Arguments :=
  match String.ofList flag with
  | "add" => if a.add then none else some { a with add := true }
  | "update" => if a.update then none else some { a with update := true }
  | "delete" => if a.delete then none else some { a with delete := true }
  | "list" => if a.list then none else some { a with list := true }
  | "instantiate" => if a.instantiate then none else some { a with instantiate := true }
  | "no-edit" => if a.noEdit then none else some { a with noEdit := true }
  | "verbose" => if a.verbose then none else some { a with verbose := true }
  | _ => none

/-- Set an option that may be given once, if it is not set yet. A directory must
not be empty. -/
def setOnce? (a : Arguments) (option value : Text) : Option Arguments :=
  match String.ofList option with
  | "name" => if a.name.isSome then none else some { a with name := some value }
  | "project-dir" =>
    if a.projectDir.isSome ∨ value = [] then none else some { a with projectDir := some value }
  | "template-dir" =>
    if a.templateDir.isSome ∨ value = [] then none else some { a with templateDir := some value }
  | _ => none

/-- Set an option, or add a value to it. -/
def setOption? (a : Arguments) (option value : Text) : Option Arguments :=
  match String.ofList option with
  | "ignore" => some { a with ignore := a.ignore ++ [value] }
  | "set" => some { a with assignments := a.assignments ++ [value] }
  | _ => setOnce? a option value

/-- The options that take a value. -/
def optionNames : List Text :=
  ["name".toList, "project-dir".toList, "template-dir".toList, "ignore".toList, "set".toList]

/-- How many operations are asked for. -/
def operations (a : Arguments) : Nat :=
  ([a.add, a.update, a.delete, a.list, a.instantiate].filter id).length

/-- Accept arguments that ask for exactly one operation. -/
def accept (a : Arguments) : Reading := if a.operations = 1 then .accepted a else .misused

/-- Read the letters behind a single dash. -/
def readLetters (a : Arguments) : Text → Except Reading Arguments
  | [] => .ok a
  | 'v' :: rest =>
    match setFlag? a "verbose".toList with
    | some a => readLetters a rest
    | none => .error .misused
  | 'h' :: _ => .error .help
  | 'V' :: _ => .error .version
  | _ :: _ => .error .misused

/-- Read arguments onto those read before. -/
def readFrom (a : Arguments) : List Text → Reading
  | [] => a.accept
  | ['-', '-'] :: rest => if rest = [] then a.accept else .misused
  | ('-' :: '-' :: long) :: rest =>
    match Text.cut? '=' long with
    | some (option, value) =>
      match setOption? a option value with
      | some a => readFrom a rest
      | none => .misused
    | none =>
      if long = "help".toList then .help
      else if long = "version".toList then .version
      else if long ∈ optionNames then
        match rest with
        | [] => .misused
        | value :: rest =>
          if value.head? = some '-' ∧ value ≠ ['-'] then .misused
          else match setOption? a long value with
            | some a => readFrom a rest
            | none => .misused
      else match setFlag? a long with
        | some a => readFrom a rest
        | none => .misused
  | ('-' :: letter :: letters) :: rest =>
    match readLetters a (letter :: letters) with
    | .ok a => readFrom a rest
    | .error reading => reading
  | _ :: _ => .misused

/-- Read a command line. -/
def read (args : List Text) : Reading := readFrom blank args

end Arguments

end CommandLine

end Scaffold
