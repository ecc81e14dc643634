import Scaffold.Text.Octets

/-!
# Paths

A path is kept exactly as it was written. Its meaning lies in its components:
repeated and trailing slashes carry none, and neither does a dot, except at the
front of a relative path. Two paths are compared component by component, so
`a//b` and `a/b` are equal paths although they are different texts.

Nothing here looks at a file system. Dots and links are resolved where the
directories are known.
-/

namespace Scaffold

/-- A path as it is written. -/
abbrev Path := Text

namespace Path

/-- One step of a path. -/
inductive Component where
  /-- The slash in front of an absolute path. -/
  | root
  /-- The dot in front of a relative path. -/
  | here
  /-- The directory above. -/
  | up
  /-- A name in a directory. -/
  | name (t : Text)
  deriving DecidableEq

namespace Component

/-- The component as it is written. -/
def text : Component → Text
  | root => ['/']
  | here => ['.']
  | up => ['.', '.']
  | name t => t

/-- Whether the component is a name. -/
def isName : Component → Bool
  | name _ => true
  | _ => false

/-- The rank of each kind of component; names come last. -/
def rank : Component → Nat
  | root => 0
  | here => 1
  | up => 2
  | name _ => 3

/-- The bytes that decide between two names. -/
def bytes : Component → List UInt8
  | name t => Utf8.encode t
  | _ => []

end Component

/-- Whether the path starts at the root. -/
def isAbsolute (p : Path) : Bool := p.head? == some '/'

/-- The stretches between the slashes, empty ones and dots included. -/
def segments (p : Path) : List Text := Text.split '/' p

/-- Whether a segment inside a path carries no meaning. -/
def isIdle (segment : Text) : Bool := segment = [] || segment = ['.']

/-- The component that a segment stands for inside a path. -/
def component? (segment : Text) : Option Component :=
  if isIdle segment then none
  else if segment = ['.', '.'] then some .up
  else some (.name segment)

/-- The components of a path, in order. -/
def components (p : Path) : List Component :=
  let inner := (segments p).filterMap component?
  if isAbsolute p then .root :: inner
  else if (segments p).head? = some ['.'] then .here :: inner
  else inner

/-- `p` followed by `q`. An absolute `q` replaces `p`; otherwise there is a
slash between the two unless `p` is empty or already ends in one. -/
def join (p q : Path) : Path :=
  if isAbsolute q then q
  else if p = [] ∨ Text.endsIn '/' p then p ++ q
  else p ++ '/' :: q

/-- The plainest path with the given components. -/
def ofComponents (cs : List Component) : Path := cs.foldl (fun p c => join p c.text) []

/-- The path without its last component, if there is one to take away. What stands
behind the component goes with it, and so does what carries no meaning in front
of it; the rest stays as it was written. -/
def parent? (p : Path) : Option Path :=
  match segments p with
  | [] => none
  | first :: more =>
    let front := if isIdle first then [first] else []
    let body := if isIdle first then more else first :: more
    match body.reverse.dropWhile isIdle with
    | [] => if first = ['.'] then some [] else none
    | _ :: above =>
      let kept := front ++ (above.dropWhile isIdle).reverse
      some (if kept = [[]] then ['/'] else Text.joinWith '/' kept)

/-- Paths with the same components are the same path. -/
def same (p q : Path) : Bool := components p = components q

/-- How many of the components are names. -/
def depth (p : Path) : Nat := ((components p).filter Component.isName).length

/-- The path with the dot components left out. -/
def withoutDots (p : Path) : Path := ofComponents ((components p).filter (· ≠ .here))

/-- The path of `name` in the directory `parent`, where `.` is no directory. -/
def joinRelative (parent : Path) (name : Text) : Path := join (withoutDots parent) name

/-- The order of two components. -/
def componentLe (a b : Component) : Bool :=
  a.rank < b.rank || (a.rank == b.rank && decide (a.bytes ≤ b.bytes))

/-- The order of two component lists: the first difference decides, and a list
comes before its continuations. -/
def componentsLe : List Component → List Component → Bool
  | [], _ => true
  | _ :: _, [] => false
  | a :: as, b :: bs => if a = b then componentsLe as bs else componentLe a b

/-- The order of paths, component by component. -/
def le (p q : Path) : Bool := componentsLe (components p) (components q)

@[simp] theorem components_nil : components [] = [] := rfl

@[simp] theorem join_absolute {p q : Path} (h : isAbsolute q = true) : join p q = q := by
  simp [join, h]

@[simp] theorem join_empty (q : Path) : join [] q = q := by
  simp [join]

theorem same_refl (p : Path) : same p p = true := by simp [same]

end Path

end Scaffold
