import Scaffold.Text.Basic

/-!
# JSON as it is written

A layout is a JSON value as it is written at a given depth of nesting. Lists and
objects put each member on a line of its own, indented by four spaces for every
level; empty ones are a pair of brackets. In a quoted text only the quote, the
backslash and the control characters below the space are escaped.
-/

namespace Scaffold

namespace Json

/-- A written value, depending on how deeply it is nested. -/
abbrev Layout := Nat → Text

namespace Layout

/-- The two hexadecimal digits of a number below 256. -/
def hexByte (n : Nat) : Text := [Nat.digitChar (n / 16), Nat.digitChar (n % 16)]

/-- One character inside a quoted text. -/
def escape (c : Char) : Text :=
  if c = '"' then ['\\', '"']
  else if c = '\\' then ['\\', '\\']
  else if c = '\x08' then ['\\', 'b']
  else if c = '\x0c' then ['\\', 'f']
  else if c = '\n' then ['\\', 'n']
  else if c = '\r' then ['\\', 'r']
  else if c = '\t' then ['\\', 't']
  else if c.toNat < 0x20 then '\\' :: 'u' :: '0' :: '0' :: hexByte c.toNat
  else [c]

/-- A quoted text. -/
def quoted (t : Text) : Text := '"' :: t.flatMap escape ++ ['"']

/-- A text value. -/
def text (t : Text) : Layout := fun _ => quoted t

/-- A number without sign and fraction. -/
def nat (n : Nat) : Layout := fun _ => Text.ofNat n

/-- The absent value. -/
def null : Layout := fun _ => "null".toList

/-- A value that may be absent. -/
def optional {α : Type} (write : α → Layout) : Option α → Layout
  | none => null
  | some x => write x

/-- The start of a line at a depth. -/
def indent (depth : Nat) : Text := List.replicate (4 * depth) ' '

/-- Members between two brackets, each on its own line. -/
def bracketed (opening closing : Char) (members : List Layout) : Layout := fun depth =>
  match members with
  | [] => [opening, closing]
  | first :: more =>
    opening :: '\n' :: indent (depth + 1) ++ first (depth + 1)
      ++ more.flatMap (fun member => ',' :: '\n' :: indent (depth + 1) ++ member (depth + 1))
      ++ '\n' :: indent depth ++ [closing]

/-- A list of values. -/
def list (items : List Layout) : Layout := bracketed '[' ']' items

/-- A member of an object. -/
def member (key : Text) (value : Layout) : Layout := fun depth =>
  quoted key ++ ':' :: ' ' :: value depth

/-- An object. -/
def object (members : List (Text × Layout)) : Layout :=
  bracketed '{' '}' (members.map fun m => member m.1 m.2)

/-- The whole text of a value. -/
def render (value : Layout) : Text := value 0

end Layout

end Json

end Scaffold
