import Scaffold.Error
import Scaffold.FileSystem.Mode

/-!
# Entries

An entry describes one file or directory of a template: its name, the path of
the directory that holds it, its permission bits, and for a file its content. The
parent path is relative to the root of the template, which is written `.`.
-/

namespace Scaffold

/-- The kind of an entry. -/
inductive EntryKind where
  | file
  | directory
  deriving DecidableEq, Repr

namespace EntryKind

/-- The word for a kind in stored templates. -/
def tag : EntryKind → Text
  | file => "file".toList
  | directory => "dir".toList

/-- Read the word for a kind. -/
def ofTag (t : Text) : Except Error EntryKind :=
  if t = "file".toList then .ok file
  else if t = "dir".toList then .ok directory
  else .error (.invalidKind t)

@[simp] theorem ofTag_tag (k : EntryKind) : ofTag k.tag = .ok k := by
  cases k <;> rfl

end EntryKind

/-- One file or directory of a template. -/
structure Entry where
  /-- The name in its directory. -/
  name : Text
  kind : EntryKind
  /-- The path of its directory. -/
  parent : Path
  /-- The mode as it is stored, bits beyond the permissions included. -/
  bits : UInt32
  /-- The content of a file. -/
  content : Option Text
  /-- The names of the arguments that its tokens spell. -/
  argumentNames : List Text
  deriving DecidableEq

namespace Entry

/-- Whether the entry describes a file. -/
def isFile (e : Entry) : Bool := e.kind = .file

/-- Whether the entry describes a directory. -/
def isDirectory (e : Entry) : Bool := e.kind = .directory

/-- The permission bits alone. -/
def mode (e : Entry) : Mode := Mode.ofBits e.bits

/-- The path below the root of the template. -/
def path (e : Entry) : Path := Path.joinRelative e.parent e.name

/-- How many directories lie between the root and the entry. -/
def depth (e : Entry) : Nat := Path.depth e.parent

/-- Content stands exactly on file entries. -/
def WellFormed (e : Entry) : Prop := e.content.isSome = e.isFile

instance (e : Entry) : Decidable e.WellFormed := inferInstanceAs (Decidable (_ = _))

end Entry

end Scaffold
