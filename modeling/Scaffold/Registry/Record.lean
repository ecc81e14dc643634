import Scaffold.Instant
import Scaffold.Json.Layout
import Scaffold.Json.Shape
import Scaffold.Template.Name
import Scaffold.Template.Stored

/-!
# Records and the index

A registered template has a record: the project it was captured from, the
directory its config file is kept in, that file, the ignore patterns of the
capture, and the time. The index gives every registered name its record, and is
stored as one JSON object, the names in ascending order. An empty list of patterns
and an unknown time are left out of it.
-/

namespace Scaffold

open Json

/-- What is kept about a registered template. -/
structure Record where
  /-- The project that was captured. -/
  projectDir : Path
  /-- The directory of the config file. -/
  location : Path
  configFile : Path
  /-- The ignore patterns of the capture. -/
  ignore : List Text
  createdAt : Option Instant
  deriving DecidableEq

/-- What is told about a template when it is stored. -/
structure Origin where
  projectDir : Path
  location : Path
  ignore : List Text
  deriving DecidableEq

namespace Origin

/-- The path of the config file of a name. -/
def configFile (o : Origin) (name : TemplateName) : Path :=
  Path.join o.location (name.text ++ ".json".toList)

/-- The record of a template stored under a name. -/
def record (o : Origin) (name : TemplateName) (createdAt : Option Instant) : Record :=
  ⟨o.projectDir, o.location, o.configFile name, o.ignore, createdAt⟩

end Origin

/-- A template as the registry gives it out. -/
structure StoredTemplate where
  name : TemplateName
  record : Record
  template : Template
  deriving DecidableEq

namespace Record

/-- A record as it is stored. -/
def layout (r : Record) : Layout :=
  .object ([("project_dir".toList, .text r.projectDir), ("location".toList, .text r.location),
    ("config_file".toList, .text r.configFile)]
    ++ (if r.ignore = [] then [] else [("ignore".toList, .list (r.ignore.map .text))])
    ++ (match r.createdAt with
      | none => []
      | some i => [("created_at".toList, .text i.render)]))

/-- The parts of a record that were read. -/
structure Draft where
  projectDir : Option Text
  location : Option Text
  configFile : Option Text
  ignore : Option (List Text)
  createdAt : Option (Option Instant)

/-- Read an instant. -/
def readInstant : ValueReader Instant :=
  readText.convert fun written =>
    match Instant.parse? written with
    | none => .error .mismatch
    | some i => .ok i

/-- The fields of a stored record. -/
def fields : List (RecordField Draft) :=
  [.of "project_dir".toList readText Draft.projectDir
      (fun d x => { d with projectDir := some x }) false,
    .of "location".toList readText Draft.location (fun d x => { d with location := some x }) false,
    .of "config_file".toList readText Draft.configFile
      (fun d x => { d with configFile := some x }) false,
    .of "ignore".toList (readList readText) Draft.ignore
      (fun d x => { d with ignore := some x }) true,
    .of "created_at".toList (readOptional readInstant) Draft.createdAt
      (fun d x => { d with createdAt := some x }) true]

/-- The record of a draft, if nothing that is needed is missing. -/
def complete (d : Draft) : Option Record := do
  let projectDir ← d.projectDir
  let location ← d.location
  let configFile ← d.configFile
  return ⟨projectDir, location, configFile, d.ignore.getD [], d.createdAt.join⟩

/-- Read a stored record. -/
def read : ValueReader Record := readRecord fields ⟨none, none, none, none, none⟩ complete

end Record

/-- The records of the registered names. -/
abbrev Index := SortedMap TemplateName Record

namespace Index

/-- The index as it is stored. -/
def layout (index : Index) : Layout :=
  .object (index.entries.map fun e => (e.1.text, e.2.layout))

/-- The stored text of an index. -/
def render (index : Index) : Text := (layout index).render

/-- How a member of the stored index adds a record to those read so far. -/
def onName (found : Index) (key : Text) : Except Fault (ValueReader Index) :=
  match TemplateName.ofText key with
  | .error _ => .error .mismatch
  | .ok name => .ok (Record.read.map (found.insert name))

/-- Read the stored text of an index. A blank text is an empty index. -/
def parse (t : Text) : Except Error Index :=
  if Text.isAllBlank t then .ok SortedMap.empty
  else (readWhole? (readObject onName SortedMap.empty) t).mapError .json

end Index

end Scaffold
