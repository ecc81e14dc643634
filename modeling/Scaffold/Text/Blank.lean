import Scaffold.Text.Basic

/-!
# White space

White space is the Unicode property of that name: twenty-five characters, from
the tab to the ideographic space. Trimming, splitting into words and the
grammar of placeholders all use this one table. A zero-width space and the
byte order mark are not in it.
-/

namespace Scaffold

/-- The ranges of code points that are white space, in ascending order. -/
def blankRanges : List (Nat × Nat) :=
  [(0x09, 0x0D), (0x20, 0x20), (0x85, 0x85), (0xA0, 0xA0), (0x1680, 0x1680), (0x2000, 0x200A),
    (0x2028, 0x2029), (0x202F, 0x202F), (0x205F, 0x205F), (0x3000, 0x3000)]

/-- Whether a character is white space. -/
def isBlank (c : Char) : Bool :=
  blankRanges.any fun (low, high) => low ≤ c.toNat && c.toNat ≤ high

namespace Text

/-- Whether a text holds nothing but white space. -/
def isAllBlank (t : Text) : Bool := t.all isBlank

/-- The text without the white space around it. -/
def trim (t : Text) : Text := dropEndWhile isBlank (t.dropWhile isBlank)

/-- The stretches of a text between white space, the empty ones left out. -/
def words (t : Text) : List Text :=
  let step (c : Char) : List Text → List Text
    | [] => [[c]]
    | word :: more => if isBlank c then [] :: word :: more else (c :: word) :: more
  (t.foldr step [[]]).filter (· ≠ [])

/-- The lines of a text. A line ends before a line feed, and a carriage return
right before the line feed belongs to the end of the line; what follows the
last line feed is a line only if it is not empty. -/
def lines (t : Text) : List Text :=
  let pieces := split '\n' t
  let ended := pieces.dropLast.map fun line =>
    if endsIn '\r' line then line.dropLast else line
  match pieces.getLast? with
  | some [] | none => ended
  | some last => ended ++ [last]

end Text

end Scaffold
