import Scaffold.Error
import Scaffold.SortedMap

/-!
# Names

A template name starts with an ASCII letter or an underscore and goes on with
letters, digits and underscores. A rendered entry name has to be a single path
component: not empty, neither dot name, and without a slash, a backslash or a NUL
character.
-/

namespace Scaffold

/-- Whether a text is a template name. -/
def isTemplateName : Text → Bool
  | [] => false
  | first :: rest => (first.isAlpha || first = '_') && rest.all fun c => c.isAlphanum || c = '_'

/-- A name under which a template can be registered. -/
structure TemplateName where
  text : Text
  valid : isTemplateName text = true
  deriving DecidableEq

namespace TemplateName

/-- Check a name. -/
def ofText (t : Text) : Except Error TemplateName :=
  if h : isTemplateName t = true then .ok ⟨t, h⟩ else .error (.invalidTemplateName t)

instance : TextKey TemplateName where
  text := TemplateName.text
  text_injective := by
    rintro ⟨a, _⟩ ⟨b, _⟩ rfl
    rfl

@[simp] theorem ofText_text (n : TemplateName) : ofText n.text = .ok n := by
  simp [ofText, n.valid]

theorem text_of_ofText {t : Text} {n : TemplateName} (h : ofText t = .ok n) : n.text = t := by
  unfold ofText at h
  split at h
  · rw [← Except.ok.inj h]
  · simp at h

end TemplateName

/-- Whether a text can be the name of a node in a directory. -/
def isPathComponent (t : Text) : Bool :=
  t ≠ [] && t ≠ ['.'] && t ≠ ['.', '.'] && t.all fun c => c ≠ '/' && c ≠ '\\' && c ≠ '\x00'

end Scaffold
