import Scaffold.FileSystem.Action
import Scaffold.FileSystem.Listing
import Scaffold.Ignore.Pattern
import Scaffold.Template.Entry

/-!
# Scanning a directory tree

A scan describes everything below a directory as entries. A directory comes
right before its contents; within a directory, what is no directory comes before
the directories, and each group is in the order of the bytes of its names. What
an ignore pattern hides is left out together with everything below it, before it
is looked at.

Everything is looked at under its full path, which can be too long: that of the
directory, or that of what stands below it.

Links are not walked into. A link to a file is described as that file and a link
to a directory as an empty directory; a link that leads nowhere is left out. A
name or a file that is no text stops the scan at the place where it is met.
-/

namespace Scaffold

namespace Scan

open FileSystem

/-- Whether neither the node with these names, the innermost first, nor a
directory above it is hidden. -/
def isVisible (ps : IgnorePatterns) : List Name → Bool
  | [] => true
  | name :: above => !ps.hide (relativePath (name :: above)) && isVisible ps above

/-- The key by which a scan is ordered: for each name its bytes, behind a byte
that tells a directory from what is none. -/
def key (names : List Name) (x : Node) : List (List UInt8) :=
  match names with
  | [] => []
  | name :: above =>
    above.reverse.map (fun n => 1 :: n.bytes)
      ++ [(if x.isDirectory then 1 else 0) :: name.bytes]

/-- The visible nodes below a place, in the order of the scan. -/
def visits (fs : FileSystem) (root : Place) (ps : IgnorePatterns) : List (List Name × Node) :=
  ((nodesBelow fs root).filter fun v => isVisible ps v.1).mergeSort
    fun a b => decide (key a.1 a.2 ≤ key b.1 b.2)

/-- The parent path of an entry, given the names above it. -/
def parentPath (above : List Name) : Path :=
  if above = [] then ['.'] else relativePath above

/-- The entry of a directory. -/
def directoryEntry (name : Text) (above : List Name) (mode : Mode) : Entry :=
  ⟨name, .directory, parentPath above, mode.toBits, none, []⟩

/-- The entry of a file. -/
def fileEntry (name : Text) (above : List Name) (mode : Mode) (content : Text) : Entry :=
  ⟨name, .file, parentPath above, mode.toBits, some content, []⟩

/-- Describe one node below `root`, or leave it out. -/
def describe (fs : FileSystem) (root : Place) (names : List Name) : Except Error (Option Entry) :=
  match names with
  | [] => .ok none
  | .binary .. :: _ => .error (.undecodablePath (pathOf (names ++ root)))
  | .text name :: above =>
    match target fs (names ++ root) with
    | .error .notFound => .ok none
    | .error why => .error (.io why)
    | .ok (.directory mode) => .ok (some (directoryEntry name above mode))
    | .ok (.file (.text content) mode) => .ok (some (fileEntry name above mode content))
    | .ok _ => .error (.notText (pathOf (names ++ root)))

/-- Describe nodes in order. -/
def describeAll (fs : FileSystem) (root : Place) :
    List (List Name × Node) → Except Error (List Entry)
  | [] => .ok []
  | (names, _) :: more =>
    match describe fs root names with
    | .error e => .error e
    | .ok described =>
      match describeAll fs root more with
      | .error e => .error e
      | .ok entries => .ok (described.toList ++ entries)

end Scan

/-- The entries of everything below a directory that no pattern hides. -/
def scan (fs : FileSystem) (ps : IgnorePatterns) (path : Path) : Except Error (List Entry) :=
  match FileSystem.lookup fs path with
  | .ok (root, .directory _) =>
    match FileSystem.canonical fs path with
    | .error why => .error (.io why)
    | .ok _ => Scan.describeAll fs root (Scan.visits fs root ps)
  | _ => .error (.notADirectory path)

end Scaffold
