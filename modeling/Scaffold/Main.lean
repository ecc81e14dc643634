import Scaffold.CommandLine.Run
import Scaffold.FileSystem.Scene

/-!
# The program

Prints what a run of the command line comes to and ends with its exit code. The
run takes place in a file system of its own, in which the home directory of the
user and a directory to work in are empty.
-/

namespace Scaffold

namespace CommandLine

/-- The description of the arguments. -/
def helpLines : List String :=
  ["Capture project directories as templates and instantiate new projects from them",
    "",
    "Usage: project-template [OPTIONS] <--add|--update|--delete|--list|--instantiate>",
    "",
    "Options:",
    "      --add                  Capture --project-dir as a new template named --name",
    "      --update               Re-capture an existing template",
    "      --delete               Delete a template",
    "      --list                 List templates, or show one template with --name",
    "      --instantiate          Create a project at --project-dir from template --name",
    "      --name <NAME>          Template name",
    "      --project-dir <DIR>    Project directory to capture, or to create when instantiating",
    "      --template-dir <DIR>   Directory to store the template config in",
    "      --ignore <PATTERN>     Glob pattern of paths to skip while capturing (repeatable)",
    "      --set <NAME=VALUE>     Argument value for instantiation (repeatable)",
    "      --no-edit              Do not open the editor; use --set values and defaults",
    "  -v, --verbose              Enable debug logging",
    "  -h, --help                 Print help",
    "  -V, --version              Print version"]

/-- A variable of the environment as text. -/
def environment? (name : String) : IO (Option Text) := do
  return (← IO.getEnv name).map String.toList

end CommandLine

end Scaffold

open Scaffold CommandLine in
/-- Run the command line and print its outcome. -/
def main (args : List String) : IO UInt32 := do
  let env : Environment :=
    ⟨← environment? "HOME", none, ← environment? "PROJECT_TEMPLATE_HOME", ← environment? "EDITOR"⟩
  let files := FileSystem.withEmptyWorkDir "/work".toList
  let (outcome, _) := run env .epoch (args.map String.toList) files
  match outcome with
  | .help => helpLines.forM fun line => IO.println line
  | .printed output => IO.print (String.ofList output)
  | .failed e => IO.eprintln ("Error: " ++ String.ofList e.message)
  | .misused => IO.eprintln "error: unexpected arguments; try --help"
  return UInt32.ofNat outcome.code
