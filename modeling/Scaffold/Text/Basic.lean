/-!
# Text

Everything this library reads and writes is text in the end: names, paths,
file contents, patterns, configuration. Text is a list of characters, so that
each grammar can be followed by recursion on the data. `String` appears only
where a literal is written down or a program talks to the outside.

The cutting functions below never lose a character: `split` and `joinWith`
undo each other, and `cut?` returns the two sides of the first separator.
-/

namespace Scaffold

/-- A text is the list of its characters. -/
abbrev Text := List Char

namespace Text

/-- The pieces of a text between the occurrences of a separator. There is
always one piece more than there are separators. -/
def split (sep : Char) : Text → List Text
  | [] => [[]]
  | c :: rest =>
    if c = sep then [] :: split sep rest
    else match split sep rest with
      | [] => [[c]]
      | piece :: pieces => (c :: piece) :: pieces

/-- Put one separator between every two neighbouring pieces. -/
def joinWith (sep : Char) : List Text → Text
  | [] => []
  | [piece] => piece
  | piece :: next :: pieces => piece ++ sep :: joinWith sep (next :: pieces)

/-- The two sides of the first separator, if there is one. -/
def cut? (sep : Char) : Text → Option (Text × Text)
  | [] => none
  | c :: rest =>
    if c = sep then some ([], rest)
    else (cut? sep rest).map fun (before, after) => (c :: before, after)

/-- The text without its characters at the end that satisfy `p`. -/
def dropEndWhile (p : Char → Bool) (t : Text) : Text :=
  (t.reverse.dropWhile p).reverse

/-- Whether the text ends in the character `c`. -/
def endsIn (c : Char) (t : Text) : Bool := t.getLast? == some c

/-- The text repeated `n` times. -/
def times (n : Nat) (t : Text) : Text := (List.replicate n t).flatten

/-- A natural number in decimal digits. -/
def ofNat (n : Nat) : Text := Nat.toDigits 10 n

/-- A natural number in at least `width` decimal digits, padded with zeros. -/
def ofNatPadded (width n : Nat) : Text :=
  let digits := ofNat n
  List.replicate (width - digits.length) '0' ++ digits

/-- The length of a text in UTF-8 bytes. -/
def utf8Length : Text → Nat
  | [] => 0
  | c :: rest => c.utf8Size + utf8Length rest

/-- Whether the text is no longer than `n` UTF-8 bytes. -/
def fits (n : Nat) (t : Text) : Bool := utf8Length t ≤ n

theorem length_dropWhile_le (p : Char → Bool) (t : Text) :
    (t.dropWhile p).length ≤ t.length :=
  (List.dropWhile_suffix p).length_le

@[simp] theorem split_nil (sep : Char) : split sep [] = [[]] := rfl

theorem split_ne_nil (sep : Char) (t : Text) : split sep t ≠ [] := by
  cases t with
  | nil => simp
  | cons c rest =>
    rw [split]
    split
    · simp
    · split <;> simp

/-- Joining the pieces of a text gives the text back. -/
@[simp] theorem joinWith_split (sep : Char) (t : Text) : joinWith sep (split sep t) = t := by
  induction t with
  | nil => rfl
  | cons c rest ih =>
    have nonempty := split_ne_nil sep rest
    rw [split]
    split
    · rename_i h
      cases hs : split sep rest with
      | nil => exact absurd hs nonempty
      | cons piece pieces => rw [hs] at ih; simp [joinWith, ih, h]
    · cases hs : split sep rest with
      | nil => exact absurd hs nonempty
      | cons piece pieces =>
        rw [hs] at ih
        cases pieces with
        | nil => simpa [joinWith] using ih
        | cons next more => simpa [joinWith] using ih

/-- No piece holds a separator. -/
theorem not_mem_of_mem_split {sep : Char} {t piece : Text} (h : piece ∈ split sep t) :
    sep ∉ piece := by
  induction t generalizing piece with
  | nil => simp_all
  | cons c rest ih =>
    rw [split] at h
    split at h
    · rcases List.mem_cons.1 h with rfl | h
      · simp
      · exact ih h
    · rename_i hc
      cases hs : split sep rest with
      | nil => exact absurd hs (split_ne_nil sep rest)
      | cons first more =>
        rw [hs] at h ih
        rcases List.mem_cons.1 h with rfl | h
        · simpa [Ne.symm hc] using ih List.mem_cons_self
        · exact ih (List.mem_cons_of_mem _ h)

/-- What a piece holds is in the text. -/
theorem mem_of_mem_split {sep c : Char} {t piece : Text} (h : piece ∈ split sep t)
    (hc : c ∈ piece) : c ∈ t := by
  induction t generalizing piece with
  | nil => simp_all
  | cons d rest ih =>
    rw [split] at h
    split at h
    · rcases List.mem_cons.1 h with rfl | h
      · simp at hc
      · exact List.mem_cons_of_mem _ (ih h hc)
    · cases hs : split sep rest with
      | nil => exact absurd hs (split_ne_nil sep rest)
      | cons first more =>
        rw [hs] at h ih
        rcases List.mem_cons.1 h with rfl | h
        · rcases List.mem_cons.1 hc with rfl | hc
          · exact List.mem_cons_self
          · exact List.mem_cons_of_mem _ (ih List.mem_cons_self hc)
        · exact List.mem_cons_of_mem _ (ih (List.mem_cons_of_mem _ h) hc)

/-- The two sides of a cut, with the separator between them, are the text. -/
theorem eq_of_cut? {sep : Char} {t before after : Text} (h : cut? sep t = some (before, after)) :
    t = before ++ sep :: after := by
  induction t generalizing before with
  | nil => simp [cut?] at h
  | cons c rest ih =>
    rw [cut?] at h
    split at h
    · simp_all
    · obtain ⟨⟨b, a⟩, hb, heq⟩ := Option.map_eq_some_iff.1 h
      simp only [Prod.mk.injEq] at heq
      obtain ⟨rfl, rfl⟩ := heq
      simp [ih hb]

end Text

end Scaffold
