import Scaffold.FileSystem.Resolve

/-!
# Actions on a file system

An action changes the file system and gives a result, or is refused; a refused
action keeps what it had changed until then. The single actions below change at
most one place. `createDirectories` is the only one that changes several: it
makes the missing directories on the way, the outermost first.

New files have the mode `0o644` and new directories `0o755`. A directory made in
a directory with the set-group-ID bit has that bit too. Writing to an existing
file keeps its mode.
-/

namespace Scaffold

/-- A change of the file system that gives a result or is refused. -/
abbrev FileAction := EStateM IoError FileSystem

namespace FileSystem

/-- The mode of a directory that is made at a place. -/
def inheritedMode (fs : FileSystem) : Place → Mode
  | [] => .newDirectory
  | _ :: parent =>
    match fs.get? parent with
    | some (.directory mode) => .newDirectory ||| (mode &&& .setGroupId)
    | _ => .newDirectory

/-- The segments of a path without the slashes at its end. -/
def segmentsWithoutEnd (path : Path) : List Text :=
  ((Path.segments path).reverse.dropWhile (· = [])).reverse

/-- The place of the entry that is made or taken away under a path. A link there
is not followed, also when slashes stand behind it. -/
def locateEntry (fs : FileSystem) (path : Path) : Except IoError Place :=
  match refusal? path with
  | some why => .error why
  | none =>
    resolve fs .entry maxLinks (startOf fs.workDir path) (segmentsWithoutEnd path)

/-- The paths of a path and of its ancestors, the path itself first. The root
and the empty path are not among them, for they need not be made. -/
def ancestors (path : Path) : List Path :=
  let parts := Path.components path
  let shorter := (List.range (parts.length - 1)).reverse.map fun n => parts.take (n + 1)
  let steps := shorter.filter (· ≠ [.root])
  if parts = [] ∨ parts = [.root] then [] else path :: steps.map Path.ofComponents

end FileSystem

namespace FileAction

open FileSystem

/-- Ask the file system without changing it. -/
def query {α : Type} (ask : FileSystem → Except IoError α) : FileAction α := fun fs =>
  match ask fs with
  | .ok answer => .ok answer fs
  | .error why => .error why fs

/-- Make one directory. -/
def createDirectory (path : Path) : FileAction Unit := fun fs =>
  match locateEntry fs path with
  | .error why => .error why fs
  | .ok place =>
    match fs.get? place with
    | some _ => .error .alreadyExists fs
    | none => .ok () (fs.put place (.directory (inheritedMode fs place)))

/-- Make the first of the paths, and before it as many of those behind it as are
missing. A path that already is a directory will do. -/
def createAll : List Path → FileAction Unit
  | [] => fun fs => .ok () fs
  | path :: above => fun fs =>
    match createDirectory path fs with
    | .ok _ fs => .ok () fs
    | .error .notFound fs =>
      match createAll above fs with
      | .error why fs => .error why fs
      | .ok _ fs =>
        match createDirectory path fs with
        | .ok _ fs => .ok () fs
        | .error why fs => if isDirectory fs path then .ok () fs else .error why fs
    | .error why fs => if isDirectory fs path then .ok () fs else .error why fs

/-- Make a directory and the missing directories on the way to it. -/
def createDirectories (path : Path) : FileAction Unit := createAll (ancestors path)

/-- The text of a file. -/
def readText (path : Path) : FileAction Text :=
  query fun fs =>
    match lookup fs path with
    | .error why => .error why
    | .ok (_, .file (.text t) _) => .ok t
    | .ok (_, .file (.binary ..) _) => .error .invalidData
    | .ok (_, _) => .error .isADirectory

/-- Write a file, which is made if there is none. A link is followed, also to a
place that is free. The result is the place of the file. -/
def writeFile (path : Path) (content : Octets) : FileAction Place := fun fs =>
  match locate fs .file path with
  | .error why => .error why fs
  | .ok place =>
    match fs.get? place with
    | none => .ok place (fs.put place (.file content .newFile))
    | some (.file _ mode) => .ok place (fs.put place (.file content mode))
    | some _ => .error .isADirectory fs

/-- Open a file for reading and writing. An absent file is made, and it is
empty; an existing one is left as it is. The result is the place of the file. -/
def openFile (path : Path) : FileAction Place := fun fs =>
  match locate fs .file path with
  | .error why => .error why fs
  | .ok place =>
    match fs.get? place with
    | none => .ok place (fs.put place (.file (.text []) .newFile))
    | some (.file ..) => .ok place fs
    | some _ => .error .isADirectory fs

/-- Move a new file with this content and mode to a path, in the stead of a file
or a link that stands there. A link is replaced, not followed. The result is the
place of the file. -/
def replaceFile (path : Path) (content : Octets) (mode : Mode) : FileAction Place := fun fs =>
  match locate fs .entry path with
  | .error why => .error why fs
  | .ok place =>
    match fs.get? place with
    | some (.directory _) => .error .isADirectory fs
    | _ => .ok place (fs.put place (.file content mode))

/-- Take away a file or a link, whose path must not end in a slash. The result is
the place where it stood. -/
def removeFile (path : Path) : FileAction Place := fun fs =>
  match locateEntry fs path with
  | .error why => .error why fs
  | .ok place =>
    match fs.get? place with
    | none => .error .notFound fs
    | some (.directory _) => .error .isADirectory fs
    | some _ =>
      if Text.endsIn '/' path then .error .notADirectory fs
      else .ok place (fs.remove place)

/-- Take away an empty directory. It has to be named: the root and a path that
ends in a dot or in two are refused. -/
def removeDirectory (path : Path) : FileAction Unit := fun fs =>
  match locateEntry fs path with
  | .error why => .error why fs
  | .ok place =>
    match fs.get? place with
    | none => .error .notFound fs
    | some (.directory _) =>
      match (segmentsWithoutEnd path).getLast? with
      | none => .error .resourceBusy fs
      | some last =>
        if last = ['.'] then .error .invalidArgument fs
        else if last = ['.', '.'] ∨ fs.childNames place ≠ [] then .error .directoryNotEmpty fs
        else .ok () (fs.remove place)
    | some _ => .error .notADirectory fs

/-- Take away a directory with everything in it. The contents go first, and they
are gone also when the directory itself is refused. A directory that can no longer
be reached then counts as taken away. -/
def removeTree (path : Path) (place : Place) : FileAction Unit := fun fs =>
  let cleared := (fs.childNames place).foldl (fun fs name => fs.remove (name :: place)) fs
  match removeDirectory path cleared with
  | .error .notFound fs => .ok () fs
  | outcome => outcome

/-- Set the permission bits of what a path leads to. -/
def setMode (path : Path) (mode : Mode) : FileAction Unit := fun fs =>
  match lookup fs path with
  | .error why => .error why fs
  | .ok (place, x) => .ok () (fs.put place (x.withMode mode))

/-- The text of the file at a place. -/
def readPlace (place : Place) : FileAction Text :=
  query fun fs =>
    match fs.get? place with
    | none => .error .notFound
    | some (.file (.text t) _) => .ok t
    | some (.file (.binary ..) _) => .error .invalidData
    | some _ => .error .isADirectory

/-- Change the content of the file at a place. It keeps its mode. -/
def changePlace (place : Place) (change : Octets → Octets) : FileAction Unit := fun fs =>
  match fs.get? place with
  | some (.file old mode) => .ok () (fs.put place (.file (change old) mode))
  | _ => .ok () fs

/-- Cut off the file at a place, so that nothing is left in it. -/
def truncatePlace (place : Place) : FileAction Unit := changePlace place fun _ => .text []

/-- Write over the file at a place from its beginning on. -/
def overwritePlace (place : Place) (content : Octets) : FileAction Unit :=
  changePlace place fun old => old.overwrite content

/-- Write anew the content of the file at a place. The file is cut off first, for what it is
longer by would stay behind the new content. -/
def writePlace (place : Place) (content : Octets) : FileAction Unit := do
  truncatePlace place
  overwritePlace place content

/-- The names in the directory that a path leads to. -/
def listDirectory (path : Path) : FileAction (List Name) :=
  query fun fs =>
    match lookup fs path with
    | .error why => .error why
    | .ok (place, .directory _) => .ok (fs.childNames place)
    | .ok _ => .error .notADirectory

end FileAction

end Scaffold
