import Scaffold.Text.Basic

/-!
# Globs

A glob is a text with wildcards. `?` stands for one character and `*` for any
stretch of characters, slashes included. `[...]` stands for one character of a
list of characters and ranges, `[!...]` for one that is not in the list; a
closing bracket that comes first belongs to the list. `**` must be a whole
component: followed by a slash it stands for any number of leading components,
and at the end for everything that is left.

`parse?` reads a glob. `accepts` says what it means: a stretch may have every
length, so a glob accepts a text if there is any way to divide the text up.
`covers` finds that out without trying all the ways one after the other, and
`covers_eq_accepts` says that it finds the same.
-/

namespace Scaffold

namespace Glob

/-- Why a text is no glob. Each position counts the characters before it. -/
inductive Fault where
  /-- Three or more stars in a row. -/
  | starRun (position : Nat)
  /-- Two stars that are not a whole component. -/
  | partialComponent (position : Nat)
  /-- A bracket that opens no list. -/
  | badList (position : Nat)
  deriving DecidableEq, Repr

namespace Fault

/-- Where the fault was found. -/
def position : Fault → Nat
  | starRun n => n
  | partialComponent n => n
  | badList n => n

/-- What is wrong there. -/
def reason : Fault → Text
  | starRun _ => "wildcards are either regular `*` or recursive `**`".toList
  | partialComponent _ => "recursive wildcards must form a single path component".toList
  | badList _ => "invalid range pattern".toList

/-- The wording of a fault. -/
def message (f : Fault) : Text :=
  "Pattern syntax error near position ".toList ++ Text.ofNat f.position ++ ": ".toList ++ f.reason

end Fault

/-- A part of a bracketed list. -/
inductive Member where
  | single (c : Char)
  | range (low high : Char)
  deriving DecidableEq, Repr

namespace Member

/-- Whether a character is meant. -/
def has (c : Char) : Member → Bool
  | single d => c = d
  | range low high => low ≤ c && c ≤ high

end Member

/-- One part of a glob. -/
inductive Part where
  /-- This character. -/
  | literal (c : Char)
  /-- Any character. -/
  | anyChar
  /-- One of a list, or one outside of it. -/
  | oneOf (members : List Member) (negated : Bool)
  /-- Any stretch of characters. -/
  | stretch
  /-- Any number of leading components. -/
  | components
  deriving DecidableEq, Repr

namespace Part

/-- Whether the part stands for the character. The last two stand for more than
one character and are treated by `accepts`. -/
def hasChar (c : Char) : Part → Bool
  | literal d => c = d
  | anyChar => true
  | oneOf members negated => members.any (Member.has c) != negated
  | stretch => false
  | components => false

end Part

/-- The members of a bracketed list. A dash between two characters makes a range. -/
def members : Text → List Member
  | low :: '-' :: high :: rest => .range low high :: members rest
  | c :: rest => .single c :: members rest
  | [] => []

/-- Read a bracketed list behind its opening bracket, whose position is `at`. -/
def readList? (position : Nat) (t : Text) : Except Fault (Part × Text) :=
  let negated := t.head? = some '!'
  let body := if negated then t.tail else t
  match body with
  | [] => .error (.badList position)
  | first :: more =>
    match Text.cut? ']' more with
    | none => .error (.badList position)
    | some (inner, rest) => .ok (.oneOf (members (first :: inner)) negated, rest)

theorem length_le_of_readList? {position : Nat} {t rest : Text} {part : Part}
    (h : readList? position t = .ok (part, rest)) : rest.length ≤ t.length := by
  simp only [readList?] at h
  split at h
  · simp at h
  · rename_i first more hbody
    split at h
    · simp at h
    · rename_i inner found hcut
      simp only [Except.ok.injEq, Prod.mk.injEq] at h
      obtain ⟨_, rfl⟩ := h
      have hmore := congrArg List.length (Text.eq_of_cut? hcut)
      simp only [List.length_append, List.length_cons] at hmore
      have hlen : more.length + 1 ≤ t.length := by
        split at hbody
        · have := congrArg List.length hbody
          simp only [List.length_tail, List.length_cons] at this
          omega
        · simp [hbody]
      omega

/-- Read a glob from `position` on. `before` is the character in front of it. -/
def parseFrom (position : Nat) (before : Option Char) (parts : List Part) :
    Text → Except Fault (List Part)
  | [] => .ok parts.reverse
  | '?' :: rest => parseFrom (position + 1) (some '?') (.anyChar :: parts) rest
  | '*' :: '*' :: '*' :: _ => .error (.starRun (position + 2))
  | '*' :: '*' :: after =>
    if before = none ∨ before = some '/' then
      let next := if parts.length > 1 ∧ parts.head? = some .components then parts
        else .components :: parts
      match after with
      | [] => .ok next.reverse
      | '/' :: more => parseFrom (position + 3) (some '/') next more
      | _ => .error (.partialComponent (position + 2))
    else .error (.partialComponent (position - 1))
  | '*' :: rest => parseFrom (position + 1) (some '*') (.stretch :: parts) rest
  | '[' :: rest =>
    match h : readList? position rest with
    | .error fault => .error fault
    | .ok (part, after) =>
      have : after.length ≤ rest.length := length_le_of_readList? h
      parseFrom (position + (rest.length - after.length) + 1) (some ']') (part :: parts) after
  | c :: rest => parseFrom (position + 1) (some c) (.literal c :: parts) rest
termination_by t => t.length

/-- Read a glob. -/
def parse? (t : Text) : Except Fault (List Part) := parseFrom 0 none [] t

/-- Whether `tail` accepts some end of the text: the whole of it, or any shorter
one that the test lets begin there. -/
def someEnd (accepts : Text → Bool) (begins : Char → Bool) : Text → Bool
  | [] => accepts []
  | c :: rest => (begins c && accepts rest) || someEnd accepts begins rest

/-- Whether the parts of a glob cover a text. -/
def accepts : List Part → Text → Bool
  | [], t => t.isEmpty
  | .stretch :: parts, t => accepts parts t || someEnd (accepts parts) (fun _ => true) t
  | .components :: parts, t => accepts parts t || someEnd (accepts parts) (· = '/') t
  | _ :: _, [] => false
  | part :: parts, c :: rest => part.hasChar c && accepts parts rest

/-! ## Matching part by part

Whether parts cover a text hangs on which ends of the text the parts behind the
first one cover. So the parts are taken from the last to the first, and for each
of them there is one row of answers: one for every end of the text, the whole text
first and the empty end last. -/

/-- Given a row, for every end of the text whether some end of it is covered, as in
`someEnd`. -/
def someEnds (begins : Char → Bool) : Text → List Bool → List Bool
  | c :: rest, _ :: row =>
    let ends := someEnds begins rest row
    (begins c && row.headD false || ends.headD false) :: ends
  | _, row => row

/-- The row of a part that stands for one character, given the row behind it. -/
def afterChar (part : Part) (t : Text) (row : List Bool) : List Bool :=
  t.zipWith (fun c covered => part.hasChar c && covered) row.tail ++ [false]

/-- For every end of the text whether the parts cover it. -/
def coverage : List Part → Text → List Bool
  | [], t => t.map (fun _ => false) ++ [true]
  | .stretch :: parts, t =>
    let row := coverage parts t
    row.zipWith or (someEnds (fun _ => true) t row)
  | .components :: parts, t =>
    let row := coverage parts t
    row.zipWith or (someEnds (· = '/') t row)
  | part :: parts, t => afterChar part t (coverage parts t)

/-- Whether the parts of a glob cover a text. -/
def covers (parts : List Part) (t : Text) : Bool := (coverage parts t).headD false

/-- A row holds the right answer for every end of a text. -/
def IsRow (answer : Text → Bool) (row : Text → List Bool) : Prop :=
  row [] = [answer []] ∧ ∀ c rest, row (c :: rest) = answer (c :: rest) :: row rest

theorem IsRow.head?_getD {answer : Text → Bool} {row : Text → List Bool} (h : IsRow answer row)
    (t : Text) : (row t).head?.getD false = answer t := by
  cases t with
  | nil => simp [h.1]
  | cons c rest => simp [h.2]

theorem IsRow.someEnds {answer : Text → Bool} {row : Text → List Bool} (h : IsRow answer row)
    (begins : Char → Bool) :
    IsRow (someEnd answer begins) fun t => someEnds begins t (row t) := by
  have first : ∀ t,
      (Glob.someEnds begins t (row t)).head?.getD false = someEnd answer begins t := by
    intro t
    induction t with
    | nil => simp [Glob.someEnds, someEnd, h.1]
    | cons c rest ih => simp [Glob.someEnds, someEnd, h.2, h.head?_getD, ih]
  refine ⟨by simp [Glob.someEnds, someEnd, h.1], fun c rest => ?_⟩
  simp [Glob.someEnds, someEnd, h.2, h.head?_getD, first]

theorem IsRow.or {answer other : Text → Bool} {row more : Text → List Bool}
    (h : IsRow answer row) (h' : IsRow other more) :
    IsRow (fun t => answer t || other t) fun t => (row t).zipWith or (more t) :=
  ⟨by simp [h.1, h'.1], fun c rest => by simp [h.2, h'.2]⟩

theorem isRow_coverage (parts : List Part) : IsRow (accepts parts) (coverage parts) := by
  induction parts with
  | nil => exact ⟨rfl, fun _ _ => rfl⟩
  | cons part parts ih =>
    have char (h : ∀ t, coverage (part :: parts) t = afterChar part t (coverage parts t))
        (hnil : accepts (part :: parts) [] = false)
        (hcons : ∀ c rest, accepts (part :: parts) (c :: rest)
          = (part.hasChar c && accepts parts rest)) :
        IsRow (accepts (part :: parts)) (coverage (part :: parts)) := by
      refine ⟨by simp [h, hnil, afterChar, ih.1], fun c rest => ?_⟩
      rw [h, h, hcons, afterChar, ih.2, List.tail_cons]
      have := ih.head?_getD rest
      cases hrow : coverage parts rest with
      | nil =>
        cases rest with
        | nil => simp [ih.1] at hrow
        | cons d more => simp [ih.2] at hrow
      | cons covered row =>
        rw [hrow] at this
        simp only [List.head?_cons, Option.getD_some] at this
        simp [afterChar, this]
    cases part with
    | stretch =>
      have hrow := ih.or (ih.someEnds fun _ => true)
      exact ⟨by simpa [coverage, accepts] using hrow.1, fun c rest => by
        simpa [coverage, accepts] using hrow.2 c rest⟩
    | components =>
      have hrow := ih.or (ih.someEnds (· = '/'))
      exact ⟨by simpa [coverage, accepts] using hrow.1, fun c rest => by
        simpa [coverage, accepts] using hrow.2 c rest⟩
    | literal c => exact char (fun t => by rw [coverage]; all_goals simp) rfl fun _ _ => rfl
    | anyChar => exact char (fun t => by rw [coverage]; all_goals simp) rfl fun _ _ => rfl
    | oneOf members negated =>
      exact char (fun t => by rw [coverage]; all_goals simp) rfl fun _ _ => rfl

/-- The parts that are taken one after the other accept what they accept together. -/
@[simp] theorem covers_eq_accepts (parts : List Part) (t : Text) :
    covers parts t = accepts parts t := by
  simpa [covers] using (isRow_coverage parts).head?_getD t

end Glob

end Scaffold
