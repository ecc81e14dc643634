import Scaffold.FileSystem.Basic
import Scaffold.FileSystem.Error

/-!
# From paths to places

A path is resolved one segment at a time. `walk` takes the segments as far as
they lead without following a link: it arrives at a place, is refused, or stands
before a link that has to be followed. `resolve` then goes on from the link's
target. The number of links that may be followed is the measure of `resolve`,
so a loop of links ends in a refusal.

Arriving at a place does not mean that something stands there. The last name of
a path may be free, and mostly also when slashes follow it; only the directories
on the way have to exist. Where a file is to be made, no slash may follow.
-/

namespace Scaffold

namespace FileSystem

/-- How many links one resolution may follow. -/
def maxLinks : Nat := 40

/-- What a path is resolved for. -/
inductive Goal where
  /-- What the path leads to: a link at its end is followed. -/
  | node
  /-- What stands at the end of the path, be it a link. -/
  | entry
  /-- A file that is made if there is none: a link at the end is followed, and a
  last name with a slash behind it is refused, for it means a directory. -/
  | file
  deriving DecidableEq

/-- Where a walk ends. -/
inductive Walk where
  /-- At this place, free or taken. -/
  | arrived (place : Place)
  /-- Refused on the way. -/
  | blocked (why : IoError)
  /-- Before the link at the place `link`, with `rest` still to go behind it. -/
  | followed (target : Path) (link : Place) (rest : List Text)

/-- Whether a segment is a last name with a slash behind it, given the segments
behind it. -/
def isSlashed (rest : List Text) : Bool := rest ≠ [] && rest.all (· = [])

/-- Walk from `here` along the segments. A link in the last segment is followed
unless the goal is the entry itself; a link before the end, or one with a slash
behind it, always is. -/
def walk (fs : FileSystem) (goal : Goal) (here : Place) : List Text → Walk
  | [] => .arrived here
  | segment :: rest =>
    match fs.get? here with
    | none => .blocked .notFound
    | some (.file ..) => .blocked .notADirectory
    | some (.link _) => .blocked .notADirectory
    | some (.directory _) =>
      if Path.isIdle segment then walk fs goal here rest
      else if segment = ['.', '.'] then walk fs goal here.tail rest
      else if goal = .file && isSlashed rest then .blocked .isADirectory
      else if !Text.fits maxNameLength segment then .blocked .invalidFilename
      else
        let next : Place := .text segment :: here
        match fs.get? next with
        | none => if rest.all (· = []) then .arrived next else .blocked .notFound
        | some (.link target) =>
          if rest = [] && goal = .entry then .arrived next else .followed target next rest
        | some _ => walk fs goal next rest

/-- The place from which a path starts when it is met in the directory `base`. -/
def startOf (base : Place) (path : Path) : Place :=
  if Path.isAbsolute path then [] else base

/-- Walk along the segments, following at most `links` links. -/
def resolve (fs : FileSystem) (goal : Goal) : Nat → Place → List Text → Except IoError Place
  | links, here, segments =>
    match walk fs goal here segments with
    | .arrived place => .ok place
    | .blocked why => .error why
    | .followed target link rest =>
      match links with
      | 0 => .error .filesystemLoop
      | links + 1 =>
        resolve fs goal links (startOf link.tail target) (Path.segments target ++ rest)

/-- Why a path is refused before it is resolved. No name can hold a NUL character,
the empty path leads nowhere, and a path must not be too long. -/
def refusal? (path : Path) : Option IoError :=
  if '\x00' ∈ path then some .invalidInput
  else if path = [] then some .notFound
  else if !Text.fits maxPathLength path then some .invalidFilename
  else none

/-- The place that a path leads to. -/
def locate (fs : FileSystem) (goal : Goal) (path : Path) : Except IoError Place :=
  match refusal? path with
  | some why => .error why
  | none => resolve fs goal maxLinks (startOf fs.workDir path) (Path.segments path)

/-- The place that a path leads to, links followed, and the node there. -/
def lookup (fs : FileSystem) (path : Path) : Except IoError (Place × Node) :=
  match locate fs .node path with
  | .error why => .error why
  | .ok place =>
    match fs.get? place with
    | none => .error .notFound
    | some x => .ok (place, x)

/-- Whether the path leads to a directory. -/
def isDirectory (fs : FileSystem) (path : Path) : Bool :=
  match lookup fs path with
  | .ok (_, x) => x.isDirectory
  | .error _ => false

/-- Whether the path leads to a file. -/
def isFile (fs : FileSystem) (path : Path) : Bool :=
  match lookup fs path with
  | .ok (_, x) => x.isFile
  | .error _ => false

/-- The path of a place: the names from the root on, each behind a slash. -/
def pathOf (place : Place) : Path :=
  match place with
  | [] => ['/']
  | _ => place.reverse.flatMap fun name => '/' :: name.lossy

/-- The path of the place that a path leads to, where no link, dot or doubled
slash is left. -/
def canonical (fs : FileSystem) (path : Path) : Except IoError Path :=
  match lookup fs path with
  | .error why => .error why
  | .ok (place, _) =>
    if Text.fits maxPathLength (pathOf place) then .ok (pathOf place)
    else .error .invalidFilename

/-- The node that the entry `place` of a directory leads to, links followed. It is
asked for by the path of the place, which can be too long. -/
def target (fs : FileSystem) (place : Place) : Except IoError Node :=
  match place with
  | [] => .ok ((fs.get? []).getD (.directory 0o755))
  | name :: base =>
    if !Text.fits maxPathLength (pathOf place) then .error .invalidFilename
    else match resolve fs .node maxLinks base [name.lossy] with
    | .error why => .error why
    | .ok found =>
      match fs.get? found with
      | none => .error .notFound
      | some x => .ok x

theorem walk_nil (fs : FileSystem) (goal : Goal) (here : Place) :
    walk fs goal here [] = .arrived here := by
  rw [walk]

/-! ## Names of text

A path is a text, and so are the names in it. Whatever a path leads to has nothing
but names of text, and its own path in turn says every one of them. -/

theorem areTexts_startOf {base : Place} (h : AreTexts base) (path : Path) :
    AreTexts (startOf base path) := by
  unfold startOf
  split
  · exact areTexts_nil
  · exact h

/-- The place at which the walk ends has names of text, be it before a link. -/
def Walk.IsText : Walk → Prop
  | .arrived place => AreTexts place
  | .blocked _ => True
  | .followed _ link _ => AreTexts link

/-- A walk goes over names of text. -/
theorem isText_of_walk {fs : FileSystem} {goal : Goal} {here : Place} {segments : List Text}
    {w : Walk} (h : AreTexts here) (ends : walk fs goal here segments = w) : w.IsText := by
  subst ends
  fun_induction walk fs goal here segments
  -- the walk is over, or goes on from where it is or from above
  case case1 => exact h
  case case5 ih => exact ih h
  case case6 ih => exact ih h.tail
  -- the walk ends at a name, or goes on from there
  case case9 | case11 | case12 => exact h.cons _
  case case13 ih => exact ih (h.cons _)
  -- the walk is blocked
  all_goals trivial

/-- Links, too, lead to names of text. -/
theorem areTexts_of_resolve {fs : FileSystem} {goal : Goal} {links : Nat} {here place : Place}
    {segments : List Text} (h : AreTexts here)
    (ok : resolve fs goal links here segments = .ok place) : AreTexts place := by
  fun_induction resolve fs goal links here segments with
  | case1 links here segments place ends =>
    obtain rfl := Except.ok.inj ok
    exact isText_of_walk h ends
  | case2 => simp at ok
  | case3 => simp at ok
  | case4 here segments target link rest ends links ih =>
    have before : AreTexts link := isText_of_walk h ends
    exact ih (areTexts_startOf before.tail target) ok

/-- A path leads to names of text. -/
theorem areTexts_of_locate {fs : FileSystem} {goal : Goal} {path : Path} {place : Place}
    (ok : locate fs goal path = .ok place) : AreTexts place := by
  unfold locate at ok
  split at ok
  · simp at ok
  · exact areTexts_of_resolve (areTexts_startOf fs.workDir_areTexts path) ok

/-- A path that is not refused can be the target of a link. -/
theorem isLinkTarget_of_refusal? {path : Path} (h : refusal? path = none) :
    isLinkTarget path = true := by
  simp only [refusal?] at h
  split at h
  · simp at h
  · rename_i nul
    have chars : ∀ c ∈ path, ¬c = '\x00' := fun c hc hnul => nul (hnul ▸ hc)
    split at h
    · simp at h
    · split at h
      · simp at h
      · simp_all [isLinkTarget]

/-- The empty path leads nowhere. -/
@[simp] theorem locate_nil (fs : FileSystem) (goal : Goal) :
    locate fs goal [] = .error .notFound := by
  simp [locate, refusal?]

/-- What a lookup finds does stand where it was found. -/
theorem get?_of_lookup {fs : FileSystem} {path : Path} {place : Place} {x : Node}
    (h : lookup fs path = .ok (place, x)) : fs.get? place = some x := by
  unfold lookup at h
  split at h
  · simp at h
  · split at h
    · simp at h
    · rename_i hget
      simp only [Except.ok.injEq, Prod.mk.injEq] at h
      obtain ⟨rfl, rfl⟩ := h
      exact hget

end FileSystem

end Scaffold
