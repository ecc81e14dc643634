import Scaffold.Instantiation.Basic
import Scaffold.Settings.Document

/-!
# Settings

The settings of the program come from its home directory, from the file
`config.toml` in it, and from the environment. The file may name the directory for
templates, an editor, and ignore patterns for every scan; no other key is known.
A relative directory for templates lies in the home directory, and the editor of
the file goes before the one of the environment.
-/

namespace Scaffold

/-- The settings that are in force. -/
structure Settings where
  /-- The directory of the registry. -/
  home : Path
  /-- Where config files are kept if nothing else is asked for. -/
  templateDir : Path
  editor : Text
  /-- The patterns of every scan. -/
  ignore : List Text
  deriving DecidableEq

namespace Settings

/-- What the settings file says. -/
structure FileSettings where
  templateDir : Option Path
  editor : Option Text
  ignore : Option (List Text)

/-- A settings file that says nothing. -/
def FileSettings.blank : FileSettings := ⟨none, none, none⟩

/-- Add one setting. -/
def FileSettings.add? (s : FileSettings) (setting : Text × Document.Value) :
    Option FileSettings :=
  match setting with
  | (key, .text t) =>
    if key = "template_dir".toList then some { s with templateDir := some t }
    else if key = "editor".toList then some { s with editor := some t }
    else none
  | (key, .list items) =>
    if key = "ignore".toList then some { s with ignore := some items } else none

/-- Read the text of a settings file. -/
def FileSettings.parse (t : Text) : Except Error FileSettings :=
  match Document.parse? t with
  | none => .error .settings
  | some settings =>
    match settings.foldlM FileSettings.add? FileSettings.blank with
    | none => .error .settings
    | some s => .ok s

/-- The settings file of a home directory. -/
def filePath (home : Path) : Path := Path.join home "config.toml".toList

/-- The editor if none is named. -/
def defaultEditor : Text := "vim".toList

/-- Bring together the home directory, the settings file and the editor of the
environment. -/
def combine (home : Path) (editor : Option Text) (file : FileSettings) : Settings where
  home := home
  templateDir := Path.join home (file.templateDir.getD "templates".toList)
  editor := (file.editor.or editor).getD defaultEditor
  ignore := file.ignore.getD []

/-- Load the settings of a home directory. -/
def load (home : Path) (editor : Option Text) : Action Settings := fun fs =>
  match FileAction.readText (filePath home) fs with
  | .error .notFound fs => .ok (combine home editor FileSettings.blank) fs
  | .error why fs => .error (.io why) fs
  | .ok t fs => Action.ofExcept ((FileSettings.parse t).map (combine home editor)) fs

/-- The index of the registry. -/
def registryPath (s : Settings) : Path := Path.join s.home "templates.json".toList

end Settings

end Scaffold
