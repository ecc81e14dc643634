import Scaffold.Instantiation.Basic
import Scaffold.Registry.Record

/-!
# Registries

A registry keeps templates by name. Commands reach it through the operations of
one class and work in a workspace: the registry, the file system, the time of the
clock, and what a user was shown and asked. There is a registry in files and one
in memory.
-/

namespace Scaffold

/-- What a user was shown and asked. -/
structure Transcript where
  /-- The buffers that were opened for editing, in order. -/
  shown : List Text
  /-- The names that had no value, for each time this was asked about. -/
  asked : List (List Text)
  deriving DecidableEq

namespace Transcript

/-- Nothing was shown or asked. -/
def empty : Transcript := ⟨[], []⟩

end Transcript

/-- Everything that a command works on. -/
structure Workspace (ρ : Type) where
  registry : ρ
  files : FileSystem
  clock : Instant
  transcript : Transcript

/-- A step of a command, which gives a result or fails. -/
abbrev Job (ρ : Type) := EStateM Error (Workspace ρ)

namespace Job

variable {ρ α : Type}

/-- Act on the file system of the workspace. -/
def onFiles (x : Action α) : Job ρ α := fun w =>
  match x w.files with
  | .ok a fs => .ok a { w with files := fs }
  | .error e fs => .error e { w with files := fs }

/-- Look at the file system of the workspace. -/
def query (ask : FileSystem → Except Error α) : Job ρ α := fun w =>
  match ask w.files with
  | .ok a => .ok a w
  | .error e => .error e w

/-- Fail or go on without touching the workspace. -/
def check (x : Except Error α) : Job ρ α := query fun _ => x

end Job

/-- Where templates are kept by name. -/
class Registry (ρ : Type) where
  /-- Whether a template has this name. -/
  contains : TemplateName → Job ρ Bool
  /-- The template of a name. -/
  get : TemplateName → Job ρ StoredTemplate
  /-- Store a template under a free name. -/
  put : TemplateName → Origin → Template → Job ρ Record
  /-- Store a template in the stead of the one of its name. -/
  replace : TemplateName → Origin → Template → Job ρ Record
  /-- Take a template away and give it out. -/
  delete : TemplateName → Job ρ StoredTemplate
  /-- All names with their records, in ascending order. -/
  list : Job ρ (List (TemplateName × Record))

end Scaffold
