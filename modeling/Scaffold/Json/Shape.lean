import Scaffold.Json.Skip

/-!
# Readers for expected shapes

The stored texts of this library have a fixed shape, and they are read against
it in one pass. A value of another shape is a mismatch, unless it is not even
JSON as far as it has to be looked at.

A record may be written as an object or as the list of its fields in order. In an
object the fields come in any order and at most once, and unknown members are
passed over; in a list, fields at the end that have a default may be left out.
-/

namespace Scaffold

namespace Json

/-- The fault of a value of another shape, given the text from its first
character on. -/
def wrongShape (t : Text) : Fault :=
  let ofReader {α : Type} (r : Except Fault α) : Fault :=
    match r with
    | .error fault => fault
    | .ok _ => .mismatch
  match t with
  | [] => .truncated
  | 'n' :: rest => ofReader (readWord "ull".toList rest)
  | 't' :: rest => ofReader (readWord "rue".toList rest)
  | 'f' :: rest => ofReader (readWord "alse".toList rest)
  | '"' :: rest => ofReader (readQuoted rest)
  | '[' :: _ => .mismatch
  | '{' :: _ => .mismatch
  | c :: rest =>
    if c = '-' ∨ c.isDigit then ofReader (readBoundedNumber (c :: rest)) else .malformed

/-- Reads a value, which has at least one character. -/
structure ValueReader (α : Type) where
  /-- Take a value from the front of a text and leave the rest. -/
  run : Reader α
  /-- What is left is shorter than the text was. -/
  shorter : ∀ {t : Text} {x : α} {rest : Text}, run t = .ok (x, rest) → rest.length < t.length

namespace ValueReader

instance {α : Type} : CoeFun (ValueReader α) fun _ => Reader α := ⟨run⟩

/-- Read a value and make another thing of it, if that is possible. -/
def convert {α β : Type} (read : ValueReader α) (f : α → Except Fault β) : ValueReader β where
  run t :=
    match read t with
    | .error fault => .error fault
    | .ok (x, rest) =>
      match f x with
      | .error fault => .error fault
      | .ok y => .ok (y, rest)
  shorter h := by
    split at h
    · simp at h
    · rename_i hread
      split at h
      · simp at h
      · simp only [Except.ok.injEq, Prod.mk.injEq] at h
        exact h.2 ▸ read.shorter hread

/-- Read a value and make another thing of it. -/
def map {α β : Type} (f : α → β) (read : ValueReader α) : ValueReader β :=
  read.convert fun x => .ok (f x)

end ValueReader

/-- A value of any shape, of which nothing is kept. -/
def anyValue : ValueReader Unit := ⟨skipValue, length_lt_of_skipFrom⟩

/-- A text value. -/
def readText : ValueReader Text where
  run t :=
    match skipSpace t with
    | '"' :: rest => readQuoted rest
    | t => .error (wrongShape t)
  shorter {t} _ _ h := by
    have space := length_skipSpace_le t
    split at h
    · rename_i hstart
      have := length_lt_of_readQuoted h
      rw [hstart, List.length_cons] at space
      omega
    · simp at h

/-- The least whole number that 32 bits cannot hold. -/
def wordBound : Nat := 4294967296

/-- A number. -/
def readNumberValue : ValueReader NumberParts where
  run t :=
    let start := skipSpace t
    if start.head?.any fun c => c = '-' || c.isDigit then readBoundedNumber start
    else .error (wrongShape start)
  shorter {t} _ _ h := by
    simp only at h
    split at h
    · exact Nat.lt_of_lt_of_le (length_lt_of_readBoundedNumber h) (length_skipSpace_le t)
    · simp at h

/-- A whole number of 32 bits. -/
def readUInt32 : ValueReader UInt32 :=
  readNumberValue.convert fun number =>
    match number.nat? with
    | none => .error .mismatch
    | some n => if n < wordBound then .ok (UInt32.ofNat n) else .error .mismatch

/-- A value that may be absent. -/
def readOptional {α : Type} (read : ValueReader α) : ValueReader (Option α) where
  run t :=
    match skipSpace t with
    | 'n' :: rest =>
      match readWord "ull".toList rest with
      | .error fault => .error fault
      | .ok (_, rest) => .ok (none, rest)
    | start =>
      match read start with
      | .error fault => .error fault
      | .ok (x, rest) => .ok (some x, rest)
  shorter {t} _ _ h := by
    have space := length_skipSpace_le t
    split at h
    · rename_i hstart
      rw [hstart, List.length_cons] at space
      split at h
      · simp at h
      · rename_i hread
        have := length_le_of_readWord hread
        simp only [Except.ok.injEq, Prod.mk.injEq] at h
        rw [← h.2]
        omega
    · split at h
      · simp at h
      · rename_i hread
        simp only [Except.ok.injEq, Prod.mk.injEq] at h
        exact h.2 ▸ Nat.lt_of_lt_of_le (read.shorter hread) space

/-- What follows inside a list. -/
inductive Turn where
  /-- The closing bracket, with the text behind it. -/
  | closed (rest : Text)
  /-- An item, with the text from its start. -/
  | item (rest : Text)

/-- Look for the next item of a list or for its end. -/
def nextItem (first : Bool) : Text → Except Fault Turn := fun t =>
  match skipSpace t with
  | [] => .error .truncated
  | ']' :: rest => .ok (.closed rest)
  | c :: rest =>
    if first then .ok (.item (c :: rest))
    else if c = ',' then
      match skipSpace rest with
      | [] => .error .truncated
      | ']' :: _ => .error .malformed
      | t => .ok (.item t)
    else .error .malformed

theorem length_lt_of_nextItem_closed {first : Bool} {t rest : Text}
    (h : nextItem first t = .ok (.closed rest)) : rest.length < t.length := by
  have space := length_skipSpace_le t
  simp only [nextItem] at h
  split at h
  · simp at h
  · rename_i hstart
    rw [hstart, List.length_cons] at space
    simp only [Except.ok.injEq, Turn.closed.injEq] at h
    rw [← h]
    omega
  · split at h
    · simp at h
    · split at h
      · split at h <;> simp at h
      · simp at h

theorem length_le_of_nextItem_item {first : Bool} {t rest : Text}
    (h : nextItem first t = .ok (.item rest)) : rest.length ≤ t.length := by
  have space := length_skipSpace_le t
  simp only [nextItem] at h
  split at h
  · simp at h
  · simp at h
  · rename_i c more _ hstart
    rw [hstart, List.length_cons] at space
    split at h
    · simp only [Except.ok.injEq, Turn.item.injEq] at h
      rw [← h, List.length_cons]
      exact space
    · split at h
      · have := length_skipSpace_le more
        split at h
        · simp at h
        · simp at h
        · simp only [Except.ok.injEq, Turn.item.injEq] at h
          rw [← h]
          omega
      · simp at h

/-- The items of a list, behind its opening bracket or behind an item. -/
def readItems {α : Type} (read : ValueReader α) (first : Bool) (t : Text) :
    Except Fault (List α × Text) :=
  match _turn : nextItem first t with
  | .error fault => .error fault
  | .ok (.closed rest) => .ok ([], rest)
  | .ok (.item start) =>
    match _item : read start with
    | .error fault => .error fault
    | .ok (x, rest) =>
      match readItems read false rest with
      | .error fault => .error fault
      | .ok (more, rest) => .ok (x :: more, rest)
termination_by t.length
decreasing_by exact Nat.lt_of_lt_of_le (read.shorter _item) (length_le_of_nextItem_item _turn)

theorem length_lt_of_readItems {α : Type} {read : ValueReader α} {first : Bool} {t rest : Text}
    {xs : List α} (h : readItems read first t = .ok (xs, rest)) : rest.length < t.length := by
  fun_induction readItems read first t generalizing xs with
  | case1 => simp at h
  | case2 _ _ _ hturn =>
    simp only [Except.ok.injEq, Prod.mk.injEq] at h
    exact h.2 ▸ length_lt_of_nextItem_closed hturn
  | case3 => simp at h
  | case4 => simp at h
  | case5 _ _ _ hturn _ _ hitem _ _ hmore ih =>
    simp only [Except.ok.injEq, Prod.mk.injEq] at h
    have := length_le_of_nextItem_item hturn
    have := read.shorter hitem
    have := ih (h.2 ▸ hmore)
    omega

/-- A list. -/
def readList {α : Type} (read : ValueReader α) : ValueReader (List α) where
  run t :=
    match skipSpace t with
    | '[' :: rest => readItems read true rest
    | t => .error (wrongShape t)
  shorter {t} _ _ h := by
    have space := length_skipSpace_le t
    split at h
    · rename_i hstart
      have := length_lt_of_readItems h
      rw [hstart, List.length_cons] at space
      omega
    · simp at h

/-- Look for the next key of an object or for its end. What is left behind a key
starts in front of its colon. -/
def nextKey (first : Bool) : Text → Except Fault (Option Text × Text) := fun t =>
  let quotedKey (t : Text) : Except Fault (Option Text × Text) :=
    match readQuoted t with
    | .error fault => .error fault
    | .ok (key, rest) => .ok (some key, rest)
  match skipSpace t with
  | [] => .error .truncated
  | '}' :: rest => .ok (none, rest)
  | c :: rest =>
    if first then
      if c = '"' then quotedKey rest else .error .malformed
    else if c = ',' then
      match skipSpace rest with
      | [] => .error .truncated
      | '"' :: rest => quotedKey rest
      | _ => .error .malformed
    else .error .malformed

theorem length_lt_of_nextKey {first : Bool} {t rest : Text} {key : Option Text}
    (h : nextKey first t = .ok (key, rest)) : rest.length < t.length := by
  have space := length_skipSpace_le t
  have quoted {t : Text} (h : (match readQuoted t with
      | .error fault => .error fault
      | .ok (key, rest) => .ok (some key, rest) : Except Fault (Option Text × Text))
        = .ok (key, rest)) : rest.length < t.length := by
    split at h
    · simp at h
    · rename_i hread
      simp only [Except.ok.injEq, Prod.mk.injEq] at h
      exact h.2 ▸ length_lt_of_readQuoted hread
  simp only [nextKey] at h
  split at h
  · simp at h
  · rename_i hstart
    rw [hstart, List.length_cons] at space
    simp only [Except.ok.injEq, Prod.mk.injEq] at h
    rw [← h.2]
    omega
  · rename_i c more _ hstart
    rw [hstart, List.length_cons] at space
    split at h
    · split at h
      · exact Nat.lt_of_lt_of_le (quoted h) (Nat.le_of_succ_le space)
      · simp at h
    · split at h
      · have := length_skipSpace_le more
        split at h
        · simp at h
        · rename_i hkey
          rw [hkey, List.length_cons] at this
          have := quoted h
          omega
        · simp at h
      · simp at h

/-- The colon behind a key. -/
def readColon : Reader Unit := fun t =>
  match skipSpace t with
  | [] => .error .truncated
  | ':' :: rest => .ok ((), rest)
  | _ => .error .malformed

theorem length_lt_of_readColon {t rest : Text} {u : Unit} (h : readColon t = .ok (u, rest)) :
    rest.length < t.length := by
  have space := length_skipSpace_le t
  simp only [readColon] at h
  split at h
  · simp at h
  · rename_i hstart
    rw [hstart, List.length_cons] at space
    simp only [Except.ok.injEq, Prod.mk.injEq, true_and] at h
    rw [← h]
    omega
  · simp at h

/-- The members of an object, behind its opening bracket or behind a member.
`onKey` is told each key and says how its value changes what was found. -/
def readMembers {σ : Type} (onKey : σ → Text → Except Fault (ValueReader σ)) (found : σ)
    (first : Bool) (t : Text) : Except Fault (σ × Text) :=
  match _key : nextKey first t with
  | .error fault => .error fault
  | .ok (none, rest) => .ok (found, rest)
  | .ok (some key, behind) =>
    match onKey found key with
    | .error fault => .error fault
    | .ok read =>
      match _colon : readColon behind with
      | .error fault => .error fault
      | .ok (_, start) =>
        match _value : read start with
        | .error fault => .error fault
        | .ok (found, rest) => readMembers onKey found false rest
termination_by t.length
decreasing_by
  have := length_lt_of_nextKey _key
  have := length_lt_of_readColon _colon
  have := read.shorter _value
  omega

theorem length_lt_of_readMembers {σ : Type} {onKey : σ → Text → Except Fault (ValueReader σ)}
    {found found' : σ} {first : Bool} {t rest : Text}
    (h : readMembers onKey found first t = .ok (found', rest)) : rest.length < t.length := by
  fun_induction readMembers onKey found first t with
  | case1 => simp at h
  | case2 _ _ _ _ hkey =>
    simp only [Except.ok.injEq, Prod.mk.injEq] at h
    exact h.2 ▸ length_lt_of_nextKey hkey
  | case3 => simp at h
  | case4 => simp at h
  | case5 => simp at h
  | case6 _ _ _ _ _ hkey read _ _ _ hcolon _ _ hvalue ih =>
    have := length_lt_of_nextKey hkey
    have := length_lt_of_readColon hcolon
    have := read.shorter hvalue
    have := ih h
    omega

/-- A field of a record whose parts are gathered in a draft. -/
structure RecordField (δ : Type) where
  /-- The key of the field. -/
  key : Text
  /-- Read the value into the draft. -/
  read : δ → ValueReader δ
  /-- Whether the draft has the value already. -/
  isSet : δ → Bool
  /-- Whether a list may end before the field. -/
  mayEnd : Bool

namespace RecordField

/-- The field of a key, read into a place of the draft. -/
def of {α δ : Type} (key : Text) (read : ValueReader α) (get : δ → Option α) (set : δ → α → δ)
    (mayEnd : Bool) : RecordField δ where
  key := key
  read draft := read.map (set draft)
  isSet draft := (get draft).isSome
  mayEnd := mayEnd

end RecordField

/-- How a member of an object changes the draft of a record. -/
def onField {δ : Type} (fields : List (RecordField δ)) (draft : δ) (key : Text) :
    Except Fault (ValueReader δ) :=
  match fields.find? fun f => f.key = key with
  | none => .ok (anyValue.map fun _ => draft)
  | some field => if field.isSet draft then .error .mismatch else .ok (field.read draft)

/-- The fields of a record in a list, behind its opening bracket or behind a
field. -/
def readPositional {δ : Type} (draft : δ) (first : Bool) :
    List (RecordField δ) → Text → Except Fault (δ × Text)
  | [], t =>
    match skipSpace t with
    | [] => .error .truncated
    | ']' :: rest => .ok (draft, rest)
    | _ => .error .malformed
  | field :: more, t =>
    match nextItem first t with
    | .error fault => .error fault
    | .ok (.closed rest) =>
      if (field :: more).all RecordField.mayEnd then .ok (draft, rest) else .error .mismatch
    | .ok (.item rest) =>
      match field.read draft rest with
      | .error fault => .error fault
      | .ok (draft, rest) => readPositional draft false more rest

theorem length_lt_of_readPositional {δ : Type} {draft draft' : δ} {first : Bool}
    {fields : List (RecordField δ)} {t rest : Text}
    (h : readPositional draft first fields t = .ok (draft', rest)) : rest.length < t.length := by
  induction fields generalizing draft first t with
  | nil =>
    have space := length_skipSpace_le t
    simp only [readPositional] at h
    split at h
    · simp at h
    · rename_i hstart
      rw [hstart, List.length_cons] at space
      simp only [Except.ok.injEq, Prod.mk.injEq] at h
      rw [← h.2]
      omega
    · simp at h
  | cons field more ih =>
    simp only [readPositional] at h
    split at h
    · simp at h
    · rename_i hturn
      split at h
      · simp only [Except.ok.injEq, Prod.mk.injEq] at h
        exact h.2 ▸ length_lt_of_nextItem_closed hturn
      · simp at h
    · rename_i hturn
      split at h
      · simp at h
      · rename_i hread
        have := length_le_of_nextItem_item hturn
        have := (field.read draft).shorter hread
        have := ih h
        omega

/-- The draft of a record, gathered from its fields. -/
def readDraft {δ : Type} (fields : List (RecordField δ)) (blank : δ) : ValueReader δ where
  run t :=
    match skipSpace t with
    | '[' :: rest => readPositional blank true fields rest
    | '{' :: rest => readMembers (onField fields) blank true rest
    | t => .error (wrongShape t)
  shorter {t} _ _ h := by
    have space := length_skipSpace_le t
    split at h
    · rename_i hstart
      have := length_lt_of_readPositional h
      rw [hstart, List.length_cons] at space
      omega
    · rename_i hstart
      have := length_lt_of_readMembers h
      rw [hstart, List.length_cons] at space
      omega
    · simp at h

/-- A record: its fields are gathered in a draft, which `finish` completes. -/
def readRecord {δ α : Type} (fields : List (RecordField δ)) (blank : δ) (finish : δ → Option α) :
    ValueReader α :=
  (readDraft fields blank).convert fun draft =>
    match finish draft with
    | none => .error .mismatch
    | some x => .ok x

/-- An object with keys of one sort and values of one shape. -/
def readObject {σ : Type} (onKey : σ → Text → Except Fault (ValueReader σ)) (blank : σ) :
    ValueReader σ where
  run t :=
    match skipSpace t with
    | '{' :: rest => readMembers onKey blank true rest
    | t => .error (wrongShape t)
  shorter {t} _ _ h := by
    have space := length_skipSpace_le t
    split at h
    · rename_i hstart
      have := length_lt_of_readMembers h
      rw [hstart, List.length_cons] at space
      omega
    · simp at h

/-- Read a whole text as one value. -/
def readWhole? {α : Type} (read : ValueReader α) (t : Text) : Except Fault α :=
  match read t with
  | .error fault => .error fault
  | .ok (x, rest) => if skipSpace rest = [] then .ok x else .error .malformed

end Json

end Scaffold
