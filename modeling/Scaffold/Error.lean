import Scaffold.FileSystem.Error
import Scaffold.Ignore.Glob
import Scaffold.Json.Fault
import Scaffold.Path
import Scaffold.Placeholder.Source

/-!
# Errors

Every way in which an operation on templates can fail, with what the message
needs. `message` gives the wording and `kind` the coarse class by which a caller
may tell errors apart.
-/

namespace Scaffold

/-- Why an operation failed. -/
inductive Error where
  /-- The file system refused. -/
  | io (why : IoError)
  /-- A stored JSON text could not be read. -/
  | json (why : Json.Fault)
  /-- The settings file could not be read. -/
  | settings
  /-- The home directory is not known. -/
  | homeUnknown
  /-- A command line option is missing. -/
  | optionMissing (option : Text)
  /-- A stored file entry has no content. -/
  | contentMissing (path : Path)
  /-- The name of a scanned node is no text. -/
  | undecodablePath (path : Path)
  /-- An ignore pattern is no glob. -/
  | invalidPattern (pattern : Text) (fault : Glob.Fault)
  /-- A line of an edited buffer has no colon. -/
  | malformedLine (line : Text)
  /-- The config file of a registered template is gone. -/
  | configMissing (path : Path) (template : Text)
  /-- A directory is needed. -/
  | notADirectory (path : Path)
  /-- A scanned file is no text. -/
  | notText (path : Path)
  /-- Two tokens give one argument different defaults. -/
  | conflictingDefaults (name : Text) (first second : Source)
  /-- An argument has neither a value nor a default. -/
  | missingArgument (name : Text)
  /-- The target exists and is no empty directory. -/
  | targetTaken (path : Path)
  /-- A stored entry has an unknown kind. -/
  | invalidKind (tag : Text)
  /-- A rendered name is no path component. -/
  | invalidEntryName (name template : Text)
  /-- No template has this name. -/
  | templateNotFound (name : Text)
  /-- A template has this name already. -/
  | templateExists (name : Text)
  /-- A text is no template name. -/
  | invalidTemplateName (name : Text)
  /-- A text is no assignment. -/
  | invalidAssignment (text : Text)
  /-- The editor could not be run to its end. -/
  | editorFailed (editor details : Text)
  /-- The user gave up. -/
  | cancelled
  deriving DecidableEq

/-- The coarse class of an error. -/
inductive ErrorKind where
  | system (why : IoError)
  | invalidInput
  | notFound
  | alreadyExists
  | interrupted
  | other
  deriving DecidableEq

namespace Error

/-- The wording of an error. -/
def message : Error → Text
  | io why => why.message
  | json .malformed => "malformed JSON".toList
  | json .mismatch => "JSON of another shape".toList
  | json .truncated => "truncated JSON".toList
  | settings => "TOML parse error".toList
  | homeUnknown => "Could not determine home directory".toList
  | optionMissing option => option ++ " is required".toList
  | contentMissing path => "File entry '".toList ++ path ++ "' has no content".toList
  | undecodablePath path => "Path is not valid UTF-8: ".toList ++ path
  | invalidPattern pattern fault =>
    "Invalid ignore pattern '".toList ++ pattern ++ "': ".toList ++ fault.message
  | malformedLine line =>
    "Malformed value line '".toList ++ line ++ "': expected 'name: value'".toList
  | configMissing path template =>
    "Config file ".toList ++ path ++ " for template '".toList ++ template
      ++ "' is missing; delete and re-add the template".toList
  | notADirectory path => "Not a directory: ".toList ++ path
  | notText path => "File is not valid UTF-8 text: ".toList ++ path
  | conflictingDefaults name first second =>
    "Default value conflict for argument '".toList ++ name ++ "': check ".toList
      ++ first.describe ++ " and ".toList ++ second.describe
  | missingArgument name => "Missing required argument: ".toList ++ name
  | targetTaken path =>
    "Target ".toList ++ path ++ " already exists and is not an empty directory".toList
  | invalidKind tag => "Invalid entry kind '".toList ++ tag ++ "': must be 'file' or 'dir'".toList
  | invalidEntryName name template =>
    "Invalid entry name '".toList ++ name ++ "' rendered from '".toList ++ template ++ ['\'']
  | templateNotFound name => "Template '".toList ++ name ++ "' not found".toList
  | templateExists name =>
    "Template '".toList ++ name ++ "' already exists. Use --update to replace it.".toList
  | invalidTemplateName name =>
    "Invalid template name '".toList ++ name ++
      "': must start with a letter or underscore followed by letters, digits, or underscores".toList
  | invalidAssignment text =>
    "Invalid value assignment '".toList ++ text ++ "': expected NAME=VALUE".toList
  | editorFailed editor details =>
    "Editor '".toList ++ editor ++ "' failed: ".toList ++ details
  | cancelled => "Operation cancelled".toList

/-- The coarse class of an error. -/
def kind : Error → ErrorKind
  | io why => .system why
  | notADirectory _ | templateNotFound _ => .notFound
  | targetTaken _ | templateExists _ => .alreadyExists
  | cancelled => .interrupted
  | editorFailed .. => .other
  | _ => .invalidInput

end Error

end Scaffold
