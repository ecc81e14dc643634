import Scaffold.Text.Basic

/-!
# Where a token was found

A token stands in the name of an entry or in its content. The place is kept for
the message about two defaults that do not agree.
-/

namespace Scaffold

/-- The part of an entry in which a token stands. -/
inductive EntryPart where
  | name
  | content
  deriving DecidableEq

namespace EntryPart

/-- The part in words. -/
def label : EntryPart → Text
  | name => "file name".toList
  | content => "file content".toList

end EntryPart

/-- The entry and the part of it in which a token stands. -/
structure Source where
  path : Text
  part : EntryPart
  deriving DecidableEq

namespace Source

/-- The place in words. -/
def describe (s : Source) : Text := s.part.label ++ " in ".toList ++ s.path

end Source

end Scaffold
