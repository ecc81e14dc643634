import Scaffold.Registry.Basic

/-!
# A registry in files

The index is one file, and the template of each name is kept in a config file of
its own, beside other files that are none of the registry's concern. A change
opens the index, reads it, writes or removes config files, and only then writes
the index through the file that it has opened. A config file is moved into its
place in one step, so it is never seen half-written.

If the change has replaced or removed the very file that the index was read from,
what is written through the open file can no longer be reached, and the index at
its place stays as the change left it.
-/

namespace Scaffold

/-- The mode of a config file. -/
def configFileMode : Mode := 0o600

/-- Templates kept in files, the index of them at a path. -/
structure FiledRegistry where
  indexPath : Path

namespace FiledRegistry

open FileAction

/-- Read the index; if its file is missing it is empty. -/
def readIndex (r : FiledRegistry) : Action Index := fun fs =>
  match readText r.indexPath fs with
  | .error .notFound fs => .ok SortedMap.empty fs
  | .error why fs => .error (.io why) fs
  | .ok t fs => Action.ofExcept (Index.parse t) fs

/-- Change the index. The change tells, beside its result and the new index, at
which places it has replaced or removed a file. -/
def updateIndex {α : Type} (r : FiledRegistry)
    (change : Index → Action (α × Index × List Place)) : Action α := do
  (createDirectories ((Path.parent? r.indexPath).getD [])).run
  let place ← (openFile r.indexPath).run
  let t ← (readPlace place).run
  let index ← Action.ofExcept (Index.parse t)
  let (result, index, detached) ← change index
  if place ∈ detached then return result
  (writePlace place (.text (Index.render index))).run
  return result

/-- Make sure that a file can be staged in a directory. It gets a name of ten
characters there, and its path starts at the root. -/
def checkStaging (directory : Path) : FileAction Unit :=
  query fun fs =>
    let staged := Path.join directory ".tmp000000".toList
    (fs.locate .entry (Path.join (FileSystem.pathOf fs.workDir) staged)).map fun _ => ()

/-- Write the config file of a record into its directory, which is made if it is
missing. The result is the place of the file. -/
def writeConfig (record : Record) (t : Template) : Action Place := do
  (createDirectories record.location).run
  let fs ← get
  if fs.isDirectory record.location then
    (checkStaging record.location).run
    (replaceFile record.configFile (.text t.render) configFileMode).run
  else throw (.notADirectory record.location)

/-- Remove a config file that is no longer needed, as far as that is possible.
The result is the place of the removed file, if there is one. -/
def removeStale (path : Path) : Action (List Place) := fun fs =>
  match removeFile path fs with
  | .ok place fs => .ok [place] fs
  | .error _ fs => .ok [] fs

/-- Read the template of a record. -/
def readConfig (name : TemplateName) (record : Record) : Action Template := fun fs =>
  match readText record.configFile fs with
  | .error .notFound fs => .error (.configMissing record.configFile name.text) fs
  | .error why fs => .error (.io why) fs
  | .ok t fs => Action.ofExcept (Template.parse t) fs

/-- Remove the config file of a record and give out its template. A config file
that is missing or damaged counts as an empty template. -/
def takeConfig (record : Record) : Action (Template × List Place) := fun fs =>
  match readText record.configFile fs with
  | .error .notFound fs => .ok (Template.empty, []) fs
  | .error why fs => .error (.io why) fs
  | .ok t fs =>
    match removeFile record.configFile fs with
    | .error why fs => .error (.io why) fs
    | .ok place fs => .ok ((Template.parse t).toOption.getD Template.empty, [place]) fs

/-- Whether a template has this name. -/
def contains (r : FiledRegistry) (name : TemplateName) : Action Bool := do
  let index ← r.readIndex
  return index.contains name

/-- The template of a name. -/
def get (r : FiledRegistry) (name : TemplateName) : Action StoredTemplate := do
  let index ← r.readIndex
  match index.get? name with
  | none => throw (.templateNotFound name.text)
  | some record =>
    let t ← readConfig name record
    return ⟨name, record, t⟩

/-- Store a template under a free name. -/
def put (r : FiledRegistry) (now : Instant) (name : TemplateName) (origin : Origin)
    (t : Template) : Action Record :=
  r.updateIndex fun index => do
    if index.contains name then throw (.templateExists name.text)
    let record := origin.record name (some now)
    let place ← writeConfig record t
    return (record, index.insert name record, [place])

/-- Store a template in the stead of the one of its name. -/
def replace (r : FiledRegistry) (now : Instant) (name : TemplateName) (origin : Origin)
    (t : Template) : Action Record :=
  r.updateIndex fun index => do
    match index.get? name with
    | none => throw (.templateNotFound name.text)
    | some previous =>
      let record := origin.record name (some now)
      let place ← writeConfig record t
      let stale ← if Path.same previous.configFile record.configFile then pure []
        else removeStale previous.configFile
      return (record, index.insert name record, place :: stale)

/-- Take a template away and give it out. -/
def delete (r : FiledRegistry) (name : TemplateName) : Action StoredTemplate :=
  r.updateIndex fun index => do
    match index.get? name with
    | none => throw (.templateNotFound name.text)
    | some record =>
      let (t, detached) ← takeConfig record
      return (⟨name, record, t⟩, index.erase name, detached)

/-- All names with their records, in ascending order. -/
def list (r : FiledRegistry) : Action (List (TemplateName × Record)) := do
  let index ← r.readIndex
  return index.entries

/-- Act on the files of the registry of a workspace. -/
def step {α : Type} (f : FiledRegistry → Instant → Action α) : Job FiledRegistry α := fun w =>
  Job.onFiles (f w.registry w.clock) w

instance : Registry FiledRegistry where
  contains name := step fun r _ => r.contains name
  get name := step fun r _ => r.get name
  put name origin t := step fun r now => r.put now name origin t
  replace name origin t := step fun r now => r.replace now name origin t
  delete name := step fun r _ => r.delete name
  list := step fun r _ => r.list

end FiledRegistry

end Scaffold
