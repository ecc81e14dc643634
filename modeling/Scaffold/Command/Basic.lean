import Scaffold.Prompt
import Scaffold.Scan
import Scaffold.Settings.Basic

/-!
# Commands

The operations that a user asks for by the name of a template. Each checks the
name first and then works on the registry and on the file system of a workspace.
Whatever may fail without changing anything is done before the registry is
changed.
-/

namespace Scaffold

/-- What is asked of a capture. -/
structure CaptureOptions where
  name : Text
  projectDir : Path
  /-- Where the config file goes, if not to the usual place. -/
  templateDir : Option Path
  ignore : List Text

/-- What is asked of an instantiation. -/
structure InstantiateOptions where
  name : Text
  target : Path
  /-- The assignments `NAME=VALUE`. -/
  assignments : List Text
  /-- Whether to ask for values. -/
  interactive : Bool

namespace Command

open Job

variable {ρ : Type} [Registry ρ]

/-- The canonical path of a directory that is to be captured. -/
def projectPath (path : Path) (fs : FileSystem) : Except Error Path :=
  if fs.isDirectory path then (fs.canonical path).mapError .io
  else .error (.notADirectory path)

/-- The template of a directory. The patterns of the settings and those given are
read before the directory is scanned. -/
def capture (settings : Settings) (projectDir : Path) (ignore : List Text) (fs : FileSystem) :
    Except Error Template :=
  match IgnorePatterns.compile (settings.ignore ++ ignore) with
  | .error e => .error e
  | .ok ps =>
    match scan fs ps projectDir with
    | .error e => .error e
    | .ok entries => Template.ofEntries entries

/-- Capture a directory as a new template. -/
def add (settings : Settings) (o : CaptureOptions) : Job ρ StoredTemplate := do
  let name ← check (TemplateName.ofText o.name)
  if ← Registry.contains name then throw (.templateExists name.text)
  let projectDir ← query (projectPath o.projectDir)
  let template ← query (capture settings projectDir o.ignore)
  let location := o.templateDir.getD settings.templateDir
  let record ← Registry.put name ⟨projectDir, location, o.ignore⟩ template
  return ⟨name, record, template⟩

/-- Capture a registered template anew. What is not given is taken from its
record. -/
def update (settings : Settings) (o : CaptureOptions) : Job ρ StoredTemplate := do
  let name ← check (TemplateName.ofText o.name)
  let previous ← Registry.get name
  let wanted := if o.projectDir = [] then previous.record.projectDir else o.projectDir
  let projectDir ← query (projectPath wanted)
  let location := o.templateDir.getD previous.record.location
  let ignore := if o.ignore = [] then previous.record.ignore else o.ignore
  let template ← query (capture settings projectDir ignore)
  let record ← Registry.replace name ⟨projectDir, location, ignore⟩ template
  return ⟨name, record, template⟩

/-- Take a template away. -/
def delete (name : Text) : Job ρ StoredTemplate := do
  let name ← check (TemplateName.ofText name)
  Registry.delete name

/-- All templates with their records. -/
def list : Job ρ (List (TemplateName × Record)) := Registry.list

/-- One template. -/
def «show» (name : Text) : Job ρ StoredTemplate := do
  let name ← check (TemplateName.ofText name)
  Registry.get name

/-- Write a template into a new directory. The assignments give the first values;
an interactive instantiation then asks for the values of all arguments. -/
def instantiate (prompt : FileSystem → Prompt) (o : InstantiateOptions) : Job ρ Report := do
  let name ← check (TemplateName.ofText o.name)
  let stored ← Registry.get name
  onFiles (Instantiation.checkTarget o.target)
  let assigned ← check (Values.parseAssignments o.assignments)
  let w ← get
  let values ←
    if o.interactive ∧ stored.template.arguments ≠ [] then
      (prompt w.files).ask stored.template.arguments assigned
    else pure assigned
  onFiles (Scaffold.instantiate stored.template o.target values)

end Command

end Scaffold
