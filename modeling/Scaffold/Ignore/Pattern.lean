import Scaffold.Error

/-!
# Ignore patterns

A pattern hides paths below the root of a scan. Paths are matched with a slash
in front, so that nothing above the root can match, and a pattern `p` stands for
two globs. `*/p` hides what ends in `p` at any depth, and if `p` ends in a slash
then everything below such a directory as well. The second glob has no slash at
its end and hides the directory itself.
-/

namespace Scaffold

/-- A pattern and the two globs it stands for. -/
structure IgnorePattern where
  /-- The pattern as it was given. -/
  source : Text
  /-- Hides what is named, or what is below it. -/
  nested : List Glob.Part
  /-- Hides what is named. -/
  exact : List Glob.Part

namespace IgnorePattern

/-- The glob of the first kind. -/
def nestedGlob (pattern : Text) : Text :=
  '*' :: '/' :: pattern ++ (if Text.endsIn '/' pattern then ['*'] else [])

/-- The glob of the second kind. -/
def exactGlob (pattern : Text) : Text := Text.dropEndWhile (· = '/') ('*' :: '/' :: pattern)

/-- Read a glob that belongs to a pattern. -/
def compileGlob (pattern glob : Text) : Except Error (List Glob.Part) :=
  (Glob.parse? glob).mapError (.invalidPattern pattern)

/-- Read a pattern. -/
def compile (pattern : Text) : Except Error IgnorePattern := do
  let nested ← compileGlob pattern (nestedGlob pattern)
  let exact ← compileGlob pattern (exactGlob pattern)
  return ⟨pattern, nested, exact⟩

/-- Whether a path below the root of a scan is hidden. -/
def hides (p : IgnorePattern) (relative : Path) : Bool :=
  Glob.covers p.nested ('/' :: relative) || Glob.covers p.exact ('/' :: relative)

end IgnorePattern

/-- Patterns, of which each may hide a path. -/
abbrev IgnorePatterns := List IgnorePattern

namespace IgnorePatterns

/-- Read patterns in order. -/
def compile (patterns : List Text) : Except Error IgnorePatterns :=
  patterns.mapM IgnorePattern.compile

/-- Whether any of the patterns hides a path. -/
def hide (ps : IgnorePatterns) (relative : Path) : Bool := ps.any fun p => p.hides relative

@[simp] theorem hide_nil (relative : Path) : hide [] relative = false := rfl

end IgnorePatterns

end Scaffold
