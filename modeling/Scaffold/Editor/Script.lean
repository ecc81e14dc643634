import Scaffold.Text.Basic

/-!
# Line scripts

A line script edits a text line by line. Its commands are `s/pattern/text/`, which
puts a text in the stead of the first match in a line, or of all matches with the
flag `g`, and `d`, which deletes the line. A command may be meant for one line
only: for a line number, for `$`, the last line, or for the lines that match
`/pattern/`. Commands are separated by semicolons.

A pattern is a sequence of single characters, `.` for any one, bracketed lists,
and stars behind these, with `^` and `$` for the ends of the line.
-/

namespace Scaffold

namespace LineScript

/-- What stands for one character in a pattern. -/
inductive Atom where
  | char (c : Char)
  | any
  | oneOf (ranges : List (Char × Char)) (negated : Bool)

namespace Atom

/-- Whether the atom stands for the character. -/
def has (a : Atom) (c : Char) : Bool :=
  match a with
  | char d => c = d
  | any => true
  | oneOf ranges negated => (ranges.any fun (low, high) => low ≤ c && c ≤ high) != negated

end Atom

/-- A pattern: atoms, each with a star or without, and whether it is tied to the
ends of the line. -/
structure Pattern where
  atoms : List (Atom × Bool)
  atStart : Bool
  atEnd : Bool

/-- What is left of a text behind the longest stretch that the atoms cover. -/
def matchAtoms (atEnd : Bool) : List (Atom × Bool) → Text → Option Text
  | [], t => if atEnd && t ≠ [] then none else some t
  | (a, false) :: more, t =>
    match t with
    | [] => none
    | c :: rest => if a.has c then matchAtoms atEnd more rest else none
  | (a, true) :: more, t => star (matchAtoms atEnd more) a t
where
  /-- Take as many characters as possible, and fewer if the rest needs them. -/
  star (next : Text → Option Text) (a : Atom) : Text → Option Text
    | [] => next []
    | c :: rest =>
      if a.has c then (star next a rest).or (next (c :: rest)) else next (c :: rest)

/-- The first match in a line: what is before it, the match, and what is behind. -/
def find? (p : Pattern) (before t : Text) : Option (Text × Text × Text) :=
  match matchAtoms p.atEnd p.atoms t with
  | some rest => some (before, t.take (t.length - rest.length), rest)
  | none =>
    match t with
    | [] => none
    | c :: more => if p.atStart then none else find? p (before ++ [c]) more
termination_by t.length

/-- The lines that a command is meant for. -/
inductive Address where
  | every
  | number (n : Nat)
  | last
  | matching (p : Pattern)

/-- What a command does to a line. -/
inductive Deed where
  | delete
  | substitute (p : Pattern) (replacement : List (Option Char)) (everywhere : Bool)

/-- Read a pattern up to its delimiter. The atoms so far are given backwards. -/
def readPattern (delimiter : Char) (atStart : Bool) (atoms : List (Atom × Bool)) :
    Text → Option (Pattern × Text)
  | [] => none
  | '\\' :: c :: rest =>
    if c.isAlphanum ∨ c = '(' ∨ c = ')' ∨ c = '+' ∨ c = '?' ∨ c = '|' then none
    else readPattern delimiter atStart ((.char c, false) :: atoms) rest
  | '[' :: rest =>
    let negated := rest.head? = some '^'
    let body := if negated then rest.tail else rest
    match body with
    | [] => none
    | first :: more =>
      match _h : Text.cut? ']' more with
      | none => none
      | some (inner, after) =>
        if _shorter : after.length < rest.length + 1 then
          readPattern delimiter atStart ((.oneOf (ranges (first :: inner)) negated, false) :: atoms)
            after
        else none
  | c :: rest =>
    if c = delimiter then some (⟨atoms.reverse, atStart, false⟩, rest)
    else if c = '*' then
      match atoms with
      | (a, _) :: more => readPattern delimiter atStart ((a, true) :: more) rest
      | [] => readPattern delimiter atStart [(.char '*', false)] rest
    else if c = '^' ∧ atoms.isEmpty ∧ !atStart then readPattern delimiter true atoms rest
    else if c = '$' ∧ rest.head? = some delimiter then
      some (⟨atoms.reverse, atStart, true⟩, rest.tail)
    else if c = '.' then readPattern delimiter atStart ((.any, false) :: atoms) rest
    else readPattern delimiter atStart ((.char c, false) :: atoms) rest
termination_by t => t.length
where
  /-- The ranges of a bracketed list. -/
  ranges : Text → List (Char × Char)
    | low :: '-' :: high :: rest => (low, high) :: ranges rest
    | c :: rest => (c, c) :: ranges rest
    | [] => []

/-- Read a replacement up to its delimiter; `none` stands for the match. -/
def readReplacement (delimiter : Char) : Text → Option (List (Option Char) × Text)
  | [] => none
  | '\\' :: c :: rest =>
    if c.isDigit then none
    else (readReplacement delimiter rest).map fun (more, rest) =>
      (some (if c = 'n' then '\n' else if c = 't' then '\t' else c) :: more, rest)
  | c :: rest =>
    if c = delimiter then some ([], rest)
    else (readReplacement delimiter rest).map fun (more, rest) =>
      ((if c = '&' then none else some c) :: more, rest)

/-- Read the address of a command. -/
def readAddress (t : Text) : Option (Address × Text) :=
  match t with
  | '$' :: rest => some (.last, rest)
  | '/' :: rest => (readPattern '/' false [] rest).map fun (p, rest) => (.matching p, rest)
  | _ =>
    let digits := t.takeWhile Char.isDigit
    if digits = [] then some (.every, t)
    else
      let n := digits.foldl (fun n c => n * 10 + (c.toNat - '0'.toNat)) 0
      if n = 0 then none else some (.number n, t.drop digits.length)

/-- Read what a command does. -/
def readDeed (t : Text) : Option (Deed × Text) :=
  match t with
  | 'd' :: rest => some (.delete, rest)
  | 's' :: delimiter :: rest => do
    if delimiter = '\\' ∨ delimiter = '\n' then none
    let (p, rest) ← readPattern delimiter false [] rest
    let (replacement, rest) ← readReplacement delimiter rest
    match rest with
    | 'g' :: rest => return (.substitute p replacement true, rest)
    | _ => return (.substitute p replacement false, rest)
  | _ => none

/-- Read a script. -/
def parse? (t : Text) : Option (List (Address × Deed)) := do
  let (address, rest) ← readAddress t
  let (deed, rest) ← readDeed rest
  match rest with
  | [] => return [(address, deed)]
  | [';'] => return [(address, deed)]
  | ';' :: rest =>
    if _shorter : rest.length < t.length then
      let more ← parse? rest
      return (address, deed) :: more
    else none
  | _ => none
termination_by t.length

/-- Put the replacement in the stead of the match. -/
def replacementText (found : Text) (replacement : List (Option Char)) : Text :=
  replacement.flatMap fun
    | some c => [c]
    | none => found

/-- Replace the first match of a pattern in a line, or all of them. Right behind a
match that is not empty (`joined`) an empty match does not count. -/
def substitute (p : Pattern) (replacement : List (Option Char)) (everywhere joined : Bool)
    (t : Text) : Text :=
  match find? p [] t with
  | none => t
  | some (before, found, rest) =>
    if found = [] ∧ before = [] ∧ joined then
      match t with
      | [] => []
      | c :: more => c :: substitute p replacement everywhere false more
    else
      let done := before ++ replacementText found replacement
      if !everywhere || p.atStart then done ++ rest
      else if found = [] then
        match rest with
        | [] => done
        | c :: more =>
          if _shorter : more.length < t.length then
            done ++ c :: substitute p replacement everywhere false more
          else done ++ rest
      else if _shorter : rest.length < t.length then
        done ++ substitute p replacement everywhere true rest
      else done ++ rest
termination_by t.length

/-- Whether a command is meant for line `n` of `total`. -/
def Address.covers (a : Address) (n total : Nat) (line : Text) : Bool :=
  match a with
  | every => true
  | number m => m = n
  | last => n = total
  | matching p => (find? p [] line).isSome

/-- What the commands make of a line; nothing if it is deleted. -/
def runLine (commands : List (Address × Deed)) (n total : Nat) (line : Text) : Option Text :=
  commands.foldlM (fun line (address, deed) =>
    if address.covers n total line then
      match deed with
      | .delete => none
      | .substitute p replacement everywhere => some (substitute p replacement everywhere false line)
    else some line) line

/-- Run a script on a text. A last line that has no line end keeps none. -/
def run (commands : List (Address × Deed)) (t : Text) : Text :=
  let ended := Text.endsIn '\n' t
  let pieces := if ended ∨ t = [] then (Text.split '\n' t).dropLast else Text.split '\n' t
  let edited := (pieces.mapIdx fun n line =>
    (runLine commands (n + 1) pieces.length line).map fun line =>
      if n + 1 = pieces.length && !ended then line else line ++ ['\n']).filterMap id
  edited.flatten

end LineScript

end Scaffold
