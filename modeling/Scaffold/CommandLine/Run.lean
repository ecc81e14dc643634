import Scaffold.Command.Basic
import Scaffold.CommandLine.Arguments
import Scaffold.Editor.Command
import Scaffold.Registry.Filed

/-!
# The command line program

The program reads its arguments, loads the settings and carries out one operation
on the registry in files. What it prints is decided here; printing it is left to
the outside. A failing operation prints nothing but its message.
-/

namespace Scaffold

namespace CommandLine

/-- The parts of the environment that the program looks at. -/
structure Environment where
  /-- The home directory of the user. -/
  userHome : Option Text
  /-- The home directory that the system has on record for the user. -/
  recordedHome : Option Text
  /-- The home directory of the registry, if it is set. -/
  registryHome : Option Text
  /-- The editor of the user. -/
  editor : Option Text

/-- How a run of the program ends. -/
inductive Outcome where
  /-- With the description of the arguments. -/
  | help
  /-- With this output. -/
  | printed (output : Text)
  /-- With an error. -/
  | failed (e : Error)
  /-- Because the arguments are not understood. -/
  | misused

namespace Outcome

/-- The exit code. -/
def code : Outcome → Nat
  | help => 0
  | printed _ => 0
  | failed _ => 1
  | misused => 2

end Outcome

/-- Texts as lines of output. -/
def printLines (lines : List Text) : Text := lines.flatMap fun line => line ++ ['\n']

/-- What the program calls itself. -/
def versionText : Text := "project-template 0.3.0".toList

/-- A line across the output. -/
def rule : Text := List.replicate 80 '='

/-- What is printed after a capture. -/
def captureLines (verb : Text) (s : StoredTemplate) : List Text :=
  ["✅ ".toList ++ verb ++ " template ".toList ++ s.name.text ++ " from ".toList
      ++ s.record.projectDir ++ " to ".toList ++ s.record.location,
    "  ".toList ++ Text.ofNat s.template.fileCount ++ " file(s), ".toList
      ++ Text.ofNat s.template.directoryCount ++ " director(ies), ".toList
      ++ Text.ofNat s.template.arguments.length ++ " argument(s)".toList]

/-- What is printed after a deletion. -/
def deleteLines (s : StoredTemplate) : List Text :=
  ["✅ Deleted template ".toList ++ s.name.text ++ " (captured from ".toList
    ++ s.record.projectDir ++ ")".toList]

/-- What is printed for a list of templates. The names are filled up with spaces
to the same width. -/
def listLines (templates : List (TemplateName × Record)) : List Text :=
  if templates = [] then ["No templates registered".toList]
  else
    let width := (templates.map fun e => e.1.text.length).foldl max 0
    templates.map fun (name, record) =>
      name.text ++ List.replicate (width - name.text.length) ' ' ++ ": ".toList ++ record.projectDir

/-- The line of an argument. -/
def argumentLine (a : Argument) : Text :=
  a.name ++ ": ".toList ++ a.default?.getD "(required)".toList

/-- What is printed for one template. -/
def showLines (s : StoredTemplate) : List Text :=
  [rule, "PROJECT_DIR: ".toList ++ s.record.projectDir]
    ++ (s.record.createdAt.map fun i => "CREATED_AT: ".toList ++ i.display).toList
    ++ [rule, "ARGUMENTS:".toList] ++ s.template.arguments.map argumentLine
    ++ [rule, "STRUCTURE:".toList] ++ s.template.outline

/-- What is printed after an instantiation. -/
def instantiateLines (name : Text) (r : Report) (fs : FileSystem) : List Text :=
  ["✅ Instantiated template ".toList ++ name ++ " at ".toList ++ r.target ++ " (".toList
    ++ Text.ofNat (r.fileCount fs) ++ " file(s))".toList]

/-- An option that an operation cannot do without. -/
def required (value : Option Text) (option : Text) : Job FiledRegistry Text :=
  Job.check <| match value with
    | some v => .ok v
    | none => .error (.optionMissing option)

/-- Capture a project, for the first time or anew. -/
def runCapture (settings : Settings) (a : Arguments) : Job FiledRegistry (List Text) := do
  let name ← required a.name "--name".toList
  let projectDir ← match a.projectDir with
    | some dir => pure dir
    | none => if a.update then pure [] else required none "--project-dir".toList
  let options : CaptureOptions := ⟨name, projectDir, a.templateDir, a.ignore⟩
  if a.add then return captureLines "Added".toList (← Command.add settings options)
  return captureLines "Updated".toList (← Command.update settings options)

/-- Instantiate a template. -/
def runInstantiate (settings : Settings) (a : Arguments) : Job FiledRegistry (List Text) := do
  let name ← required a.name "--name".toList
  let target ← required a.projectDir "--project-dir".toList
  let report ← Command.instantiate (fun fs => Prompt.editor fs settings.editor)
    ⟨name, target, a.assignments, !a.noEdit⟩
  let w ← get
  return instantiateLines name report w.files

/-- Carry out the operation that is asked for. -/
def dispatch (settings : Settings) (a : Arguments) : Job FiledRegistry (List Text) := do
  if a.add ∨ a.update then runCapture settings a
  else if a.delete then
    let name ← required a.name "--name".toList
    return deleteLines (← Command.delete name)
  else if a.list then
    match a.name with
    | some name => return showLines (← Command.show name)
    | none => return listLines (← Command.list)
  else runInstantiate settings a

/-- The home directory of the user: the one that is set, else the one on record. -/
def Environment.homeOfUser (env : Environment) : Option Text :=
  match env.userHome with
  | some (c :: rest) => some (c :: rest)
  | _ => env.recordedHome

/-- The home directory of the registry. -/
def Environment.home (env : Environment) : Except Error Path :=
  match env.registryHome, env.homeOfUser with
  | some (c :: rest), _ => .ok (c :: rest)
  | _, some user => .ok (Path.join user ".project-template".toList)
  | _, none => .error .homeUnknown

/-- The editor of the environment, unless it is blank. -/
def Environment.usableEditor (env : Environment) : Option Text :=
  env.editor.filter fun e => !Text.isAllBlank e

/-- Load the settings and carry out an operation. -/
def perform (env : Environment) (now : Instant) (a : Arguments) : Action (List Text) := do
  let home ← Action.ofExcept env.home
  let settings ← Settings.load home env.usableEditor
  fun fs =>
    match dispatch settings a ⟨⟨settings.registryPath⟩, fs, now, Transcript.empty⟩ with
    | .ok lines w => .ok lines w.files
    | .error e w => .error e w.files

/-- Run the program. -/
def run (env : Environment) (now : Instant) (args : List Text) (fs : FileSystem) :
    Outcome × FileSystem :=
  if args = [] then (.help, fs)
  else
    match Arguments.read args with
    | .help => (.help, fs)
    | .version => (.printed (printLines [versionText]), fs)
    | .misused => (.misused, fs)
    | .accepted a =>
      match perform env now a fs with
      | .ok lines fs => (.printed (printLines lines), fs)
      | .error e fs => (.failed e, fs)

end CommandLine

end Scaffold
