import Scaffold.FileSystem.Action
import Scaffold.FileSystem.Listing

/-!
# Setting a scene

A file system can be laid out from a list of items before a program is run on it.
Directories on the way are made as they are needed, and a mode that is given is
set exactly, also on what exists already.
-/

namespace Scaffold

/-- One item of a scene. -/
inductive SceneItem where
  /-- A file with a content. -/
  | file (path : Path) (content : Octets) (mode : Option Mode)
  /-- A directory. -/
  | directory (path : Path) (mode : Option Mode)
  /-- A link to a target. -/
  | link (path target : Path)
  /-- A file in a directory whose name need not be text. -/
  | named (holder : Path) (name : Name) (content : Octets)
  /-- Nothing: what stands there is taken away with everything below it. -/
  | nothing (path : Path)

namespace SceneItem

open FileSystem FileAction

/-- Set a mode if one is given. -/
def setModeIf (path : Path) (mode : Option Mode) : FileAction Unit :=
  match mode with
  | some m => setMode path m
  | none => pure ()

/-- Make the directory that is to hold a path. -/
def createParent (path : Path) : FileAction Unit :=
  createDirectories ((Path.parent? path).getD [])

/-- Write a file under a name in a directory. -/
def writeNamed (holder : Path) (name : Name) (content : Octets) : FileAction Unit :=
  match name with
  | .text t => do
    let _ ← writeFile (Path.join holder t) content
  | .binary .. => fun fs =>
    match lookup fs (if holder = [] then ['.'] else holder) with
    | .error why => .error why fs
    | .ok (base, _) =>
      let place := name :: base
      match fs.get? place with
      | none =>
        if isNodeName name then .ok () (fs.put place (.file content .newFile))
        else .error .invalidFilename fs
      | some (.file _ mode) => .ok () (fs.put place (.file content mode))
      | some _ => .error .isADirectory fs

/-- Make a link. A slash may stand behind its path only where something stands
already, which is refused for that reason. -/
def createLink (path target : Path) : FileAction Unit := fun fs =>
  match refusal? target with
  | some why => .error why fs
  | none =>
    match locateEntry fs path with
    | .error why => .error why fs
    | .ok place =>
      match fs.get? place with
      | some _ => .error .alreadyExists fs
      | none =>
        if Text.endsIn '/' path then .error .notFound fs
        else .ok () (fs.put place (.link target))

/-- Take away what stands at a path, a directory with everything in it. -/
def clear (path : Path) : FileAction Unit := fun fs =>
  match locate fs .entry path with
  | .error why => .error why fs
  | .ok place =>
    match fs.get? place with
    | none => .error .notFound fs
    | some (.directory _) => removeTree path place fs
    | some _ => .ok () (fs.remove place)

/-- Lay out one item. -/
def lay : SceneItem → FileAction Unit
  | file path content mode => do
    createParent path
    let _ ← writeFile path content
    setModeIf path mode
  | directory path mode => do
    createDirectories path
    setModeIf path mode
  | link path target => do
    createParent path
    createLink path target
  | named holder name content => do
    createDirectories holder
    writeNamed holder name content
  | nothing path => clear path

end SceneItem

/-- Lay out items in order, up to the first that is refused. -/
def layScene : List SceneItem → FileAction Unit
  | [] => pure ()
  | item :: more => do
    item.lay
    layScene more

namespace FileSystem

/-- Everything below the directory that a path leads to, as a listing. -/
def listingOf (fs : FileSystem) (path : Path) : Option (List (List Name × Node)) :=
  match lookup fs path with
  | .ok (place, .directory _) => some (listing fs place)
  | _ => none

/-- A file system with an empty directory at an absolute path, from which relative
paths start. -/
def withEmptyWorkDir (path : Path) : FileSystem :=
  match FileAction.createDirectories path empty with
  | .ok _ fs | .error _ fs =>
    match located : locate fs .node path with
    | .ok place => fs.withWorkDir place (areTexts_of_locate located)
    | .error _ => fs

end FileSystem

end Scaffold
