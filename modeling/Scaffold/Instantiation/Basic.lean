import Scaffold.FileSystem.Action
import Scaffold.Instantiation.Plan

/-!
# Instantiation

An instantiation writes a template below a target that is free or an empty
directory. It resolves all values and makes the whole plan first. Then it writes
the entries in order; a directory gets its own mode only at the end, the last one
first, so that a directory that may not be written to does not hinder what goes
into it. A refusal while writing leaves behind what was written before.
-/

namespace Scaffold

/-- An operation on the file system that gives a result or fails. -/
abbrev Action := EStateM Error FileSystem

/-- Take the refusal of a file action for an error. -/
def FileAction.run {α : Type} (x : FileAction α) : Action α := fun fs =>
  match x fs with
  | .ok a fs => .ok a fs
  | .error why fs => .error (.io why) fs

/-- Fail or go on without touching the file system. -/
def Action.ofExcept {α : Type} (x : Except Error α) : Action α := fun fs =>
  match x with
  | .ok a => .ok a fs
  | .error e => .error e fs

/-- What an instantiation reports. -/
structure Report where
  target : Path
  /-- Every path that was written, in order. -/
  created : List Path
  /-- The final value of every argument. -/
  values : Values

namespace Report

/-- How many of the written paths lead to files. -/
def fileCount (r : Report) (fs : FileSystem) : Nat := (r.created.filter fs.isFile).length

end Report

namespace Instantiation

open FileAction

/-- Fail unless the target is free or an empty directory. -/
def checkTarget (target : Path) : Action Unit := fun fs =>
  match FileSystem.lookup fs target with
  | .error .notFound => .ok () fs
  | .error why => .error (.io why) fs
  | .ok (place, .directory _) =>
    if fs.childNames place = [] then .ok () fs else .error (.targetTaken target) fs
  | .ok _ => .error (.targetTaken target) fs

/-- Write one entry. -/
def writeEntry (p : PlannedEntry) : FileAction Unit :=
  match p.kind with
  | .directory => createDirectories p.path
  | .file => do
    createDirectories ((Path.parent? p.path).getD [])
    let _ ← writeFile p.path (.text p.content)
    setMode p.path p.mode

/-- Write entries in order. -/
def writeEntries : List PlannedEntry → FileAction Unit
  | [] => fun fs => .ok () fs
  | p :: more => do
    writeEntry p
    writeEntries more

/-- Give directories their modes in order. -/
def setModes : List PlannedEntry → FileAction Unit
  | [] => fun fs => .ok () fs
  | p :: more => do
    setMode p.path p.mode
    setModes more

/-- The directories of a plan, the last one first. -/
def directoriesBackwards (plan : List PlannedEntry) : List PlannedEntry :=
  (plan.filter fun p => p.kind = .directory).reverse

/-- Write a plan. -/
def writePlan (target : Path) (plan : List PlannedEntry) : FileAction Unit := do
  createDirectories target
  writeEntries plan
  setModes (directoriesBackwards plan)

/-- The values that tokens are rendered with: those supplied, and the final value
of every argument. -/
def lookupValues (supplied resolved : Values) : Values := supplied.update resolved

/-- The final values and the plan of a template. -/
def prepare (t : Template) (target : Path) (supplied : Values) :
    Except Error (Values × List PlannedEntry) :=
  match Contract.resolve t.arguments supplied with
  | .error e => .error e
  | .ok resolved =>
    match Plan.ofEntries (lookupValues supplied resolved) target t.entries with
    | .error e => .error e
    | .ok plan => .ok (resolved, plan)

end Instantiation

open Instantiation in
/-- Write a template below the target. -/
def instantiate (t : Template) (target : Path) (supplied : Values) : Action Report := do
  checkTarget target
  let (resolved, plan) ← Action.ofExcept (prepare t target supplied)
  (writePlan target plan).run
  return ⟨target, plan.map PlannedEntry.path, resolved⟩

end Scaffold
