import Scaffold.Template.Extraction

/-!
# Templates

A template is a list of entries and the contract of the arguments in them.
`ofEntries` derives the contract. The outline of a template shows its entries in
the order of their paths, each indented by its depth, so that what a directory
holds stands below it.
-/

namespace Scaffold

/-- Entries and the arguments they declare. -/
structure Template where
  entries : List Entry
  arguments : Contract
  deriving DecidableEq

namespace Template

/-- The template without entries. -/
def empty : Template := ⟨[], []⟩

/-- The template of a list of entries, with everything that they declare. -/
def ofEntries (entries : List Entry) : Except Error Template :=
  match Contract.extract entries with
  | .error e => .error e
  | .ok arguments => .ok ⟨entries.map Entry.withArgumentNames, arguments⟩

/-- How many entries describe files. -/
def fileCount (t : Template) : Nat := (t.entries.filter Entry.isFile).length

/-- How many entries describe directories. -/
def directoryCount (t : Template) : Nat := (t.entries.filter Entry.isDirectory).length

/-- The entries in the order of their paths. Entries of one path stay in order. -/
def sortedEntries (t : Template) : List Entry :=
  t.entries.mergeSort fun a b => Path.le a.path b.path

/-- How far one level of the outline is indented. -/
def indentation : Text := "    ".toList

/-- The line of an entry in the outline. A directory has a slash behind it. -/
def outlineLine (e : Entry) : Text :=
  Text.times e.depth indentation ++ e.name ++ (if e.isDirectory then ['/'] else [])

/-- The lines of the outline. -/
def outline (t : Template) : List Text := t.sortedEntries.map outlineLine

@[simp] theorem length_outline (t : Template) : t.outline.length = t.entries.length := by
  simp [outline, sortedEntries]

end Template

end Scaffold
