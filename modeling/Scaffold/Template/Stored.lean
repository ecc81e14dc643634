import Scaffold.Json.Layout
import Scaffold.Json.Shape
import Scaffold.Template.Basic

/-!
# The stored form of a template

A template is stored as a JSON object: its entries under `dirs_and_files` and
its arguments under `args`. `render` writes this form and `parse` reads it.

Reading first takes in the whole text and only then looks at the entries one
after the other: their kind must be known, and a file must have content. Content
that stands on a directory is dropped, so what has been read is well-formed.
-/

namespace Scaffold

open Json

/-- Every entry has content exactly if it is a file. -/
def Template.WellFormed (t : Template) : Prop := ∀ e ∈ t.entries, e.WellFormed

instance (t : Template) : Decidable t.WellFormed :=
  inferInstanceAs (Decidable (∀ e ∈ t.entries, e.WellFormed))

namespace Argument

/-- An argument as it is stored. -/
def layout (a : Argument) : Layout :=
  .object [("name".toList, .text a.name), ("default_value".toList, .optional .text a.default?)]

/-- The parts of an argument that were read. -/
structure Draft where
  name : Option Text
  default? : Option (Option Text)

/-- The fields of a stored argument. -/
def fields : List (RecordField Draft) :=
  [.of "name".toList readText Draft.name (fun d x => { d with name := some x }) false,
    .of "default_value".toList (readOptional readText) Draft.default?
      (fun d x => { d with default? := some x }) false]

/-- Read a stored argument. -/
def read : ValueReader Argument :=
  readRecord fields ⟨none, none⟩ fun d => d.name.map fun name => ⟨name, d.default?.join⟩

end Argument

/-- An entry as it is stored, its kind still a word. -/
structure StoredEntry where
  name : Text
  tag : Text
  parent : Path
  bits : UInt32
  content : Option Text
  argumentNames : List Text

namespace StoredEntry

/-- The entry that is meant. -/
def toEntry (s : StoredEntry) : Except Error Entry :=
  match EntryKind.ofTag s.tag with
  | .error e => .error e
  | .ok .directory => .ok ⟨s.name, .directory, s.parent, s.bits, none, s.argumentNames⟩
  | .ok .file =>
    match s.content with
    | none => .error (.contentMissing (Path.joinRelative s.parent s.name))
    | some content => .ok ⟨s.name, .file, s.parent, s.bits, some content, s.argumentNames⟩

/-- The parts of an entry that were read. -/
structure Draft where
  name : Option Text
  tag : Option Text
  parent : Option Text
  bits : Option UInt32
  content : Option (Option Text)
  argumentNames : Option (List Text)

/-- The fields of a stored entry. -/
def fields : List (RecordField Draft) :=
  [.of "name".toList readText Draft.name (fun d x => { d with name := some x }) false,
    .of "type".toList readText Draft.tag (fun d x => { d with tag := some x }) false,
    .of "root".toList readText Draft.parent (fun d x => { d with parent := some x }) false,
    .of "mode".toList readUInt32 Draft.bits (fun d x => { d with bits := some x }) false,
    .of "content".toList (readOptional readText) Draft.content
      (fun d x => { d with content := some x }) false,
    .of "arguments".toList (readList readText) Draft.argumentNames
      (fun d x => { d with argumentNames := some x }) true]

/-- The entry of a draft, if nothing that is needed is missing. -/
def complete (d : Draft) : Option StoredEntry := do
  let name ← d.name
  let tag ← d.tag
  let parent ← d.parent
  let bits ← d.bits
  return ⟨name, tag, parent, bits, d.content.join, d.argumentNames.getD []⟩

/-- Read a stored entry. -/
def read : ValueReader StoredEntry :=
  readRecord fields ⟨none, none, none, none, none, none⟩ complete

end StoredEntry

/-- An entry as it is stored. -/
def Entry.layout (e : Entry) : Layout :=
  .object [("name".toList, .text e.name), ("type".toList, .text e.kind.tag),
    ("root".toList, .text e.parent), ("mode".toList, .nat e.bits.toNat),
    ("content".toList, .optional .text e.content),
    ("arguments".toList, .list (e.argumentNames.map .text))]

namespace Template

/-- A template as it is stored. -/
def layout (t : Template) : Layout :=
  .object [("dirs_and_files".toList, .list (t.entries.map Entry.layout)),
    ("args".toList, .list (t.arguments.map Argument.layout))]

/-- The stored text of a template. -/
def render (t : Template) : Text := t.layout.render

/-- The parts of a template that were read. -/
structure Draft where
  entries : Option (List StoredEntry)
  arguments : Option (List Argument)

/-- The fields of a stored template. -/
def fields : List (RecordField Draft) :=
  [.of "dirs_and_files".toList (readList StoredEntry.read) Draft.entries
      (fun d x => { d with entries := some x }) false,
    .of "args".toList (readList Argument.read) Draft.arguments
      (fun d x => { d with arguments := some x }) true]

/-- Read the two parts of a stored template. -/
def readParts : ValueReader (List StoredEntry × List Argument) :=
  readRecord fields ⟨none, none⟩ fun d => d.entries.map fun entries => (entries, d.arguments.getD [])

/-- Convert stored entries in order. -/
def entriesOf : List StoredEntry → Except Error (List Entry)
  | [] => .ok []
  | s :: more =>
    match s.toEntry with
    | .error e => .error e
    | .ok first =>
      match entriesOf more with
      | .error e => .error e
      | .ok rest => .ok (first :: rest)

/-- Read the stored text of a template. -/
def parse (t : Text) : Except Error Template :=
  match readWhole? readParts t with
  | .error fault => .error (.json fault)
  | .ok (stored, arguments) =>
    match entriesOf stored with
    | .error e => .error e
    | .ok entries => .ok ⟨entries, arguments⟩

end Template

end Scaffold
