import Scaffold.Json.Lexeme

/-!
# Passing over a value

The value of an unknown member is passed over. Its form is checked, but numbers
may be of any size and escaped characters need not exist.
-/

namespace Scaffold

namespace Json

/-- What a list or an object is waiting for. -/
inductive Awaited where
  /-- A value. -/
  | value
  /-- The first item of a list, or its end. -/
  | firstItem
  /-- A comma or the end of a list. -/
  | nextItem
  /-- The first member of an object, or its end. -/
  | firstMember
  /-- A comma or the end of an object. -/
  | nextMember
  /-- The quoted key of a member. -/
  | key
  deriving DecidableEq

/-- What is awaited behind a value, given the brackets that are open around it;
nothing if none is. -/
def behind : List Char → Option Awaited
  | [] => none
  | '[' :: _ => some .nextItem
  | _ :: _ => some .nextMember

/-- Pass over a value that has no parts, whose first character is known. -/
def skipAtom : Reader Unit := fun t =>
  match t with
  | 'n' :: rest => readWord "ull".toList rest
  | 't' :: rest => readWord "rue".toList rest
  | 'f' :: rest => readWord "alse".toList rest
  | '"' :: rest => skipQuoted rest
  | c :: rest =>
    if c = '-' ∨ c.isDigit then
      match readNumber .malformed (c :: rest) with
      | .error fault => .error fault
      | .ok (_, rest) => .ok ((), rest)
    else .error .malformed
  | [] => .error .truncated

theorem length_lt_of_skipAtom {t rest : Text} {u : Unit} (h : skipAtom t = .ok (u, rest)) :
    rest.length < t.length := by
  simp only [skipAtom] at h
  split at h
  · exact Nat.lt_succ_of_le (length_le_of_readWord h)
  · exact Nat.lt_succ_of_le (length_le_of_readWord h)
  · exact Nat.lt_succ_of_le (length_le_of_readWord h)
  · exact Nat.lt_succ_of_lt (length_lt_of_skipQuoted h)
  · split at h
    · split at h
      · simp at h
      · rename_i hread
        simp only [Except.ok.injEq, Prod.mk.injEq, true_and] at h
        exact h ▸ length_lt_of_readNumber hread
    · simp at h
  · simp at h

/-- The key of a member and the colon behind it, where the key's quote is open. -/
def skipKey : Reader Unit := fun t =>
  match skipQuoted t with
  | .error fault => .error fault
  | .ok (_, rest) =>
    match skipSpace rest with
    | [] => .error .truncated
    | ':' :: rest => .ok ((), rest)
    | _ => .error .malformed

theorem length_lt_of_skipKey {t rest : Text} {u : Unit} (h : skipKey t = .ok (u, rest)) :
    rest.length < t.length := by
  simp only [skipKey] at h
  split at h
  · simp at h
  · rename_i after hread
    have := length_lt_of_skipQuoted hread
    have := length_skipSpace_le after
    split at h
    · simp at h
    · rename_i hspace
      simp only [Except.ok.injEq, Prod.mk.injEq, true_and] at h
      rw [hspace, List.length_cons, h] at this
      omega
    · simp at h

/-- Where passing over goes on: the brackets that are open, what is awaited, if
anything, and the text that is left. -/
abbrev Progress := List Char × Option Awaited × Text

/-- Pass over the key of a member of the innermost open object, where the key's quote
is open. -/
def skipMemberKey (opened : List Char) (t : Text) : Except Fault Progress :=
  match skipKey t with
  | .error fault => .error fault
  | .ok (_, rest) => .ok (opened, some .value, rest)

theorem length_lt_of_skipMemberKey {opened opened' : List Char} {next : Option Awaited}
    {t rest : Text} (h : skipMemberKey opened t = .ok (opened', next, rest)) :
    rest.length < t.length := by
  simp only [skipMemberKey] at h
  split at h
  · simp at h
  · rename_i hread
    simp only [Except.ok.injEq, Prod.mk.injEq] at h
    exact h.2.2 ▸ length_lt_of_skipKey hread

/-- Pass over one part of what is awaited: a bracket, a comma, a key with its colon,
or a value that has no parts. -/
def skipPart (opened : List Char) (awaited : Awaited) (t : Text) : Except Fault Progress :=
  match skipSpace t with
  | [] => .error .truncated
  | c :: rest =>
    let closed : Progress := (opened.tail, behind opened.tail, rest)
    match awaited with
    | .key => if c = '"' then skipMemberKey opened rest else .error .malformed
    | .nextItem =>
      if c = ',' then .ok (opened, some .value, rest)
      else if c = ']' then .ok closed
      else .error .malformed
    | .nextMember =>
      if c = ',' then .ok (opened, some .key, rest)
      else if c = '}' then .ok closed
      else .error .malformed
    | .firstMember =>
      if c = '"' then skipMemberKey opened rest
      else if c = '}' then .ok closed
      else .error .malformed
    | .firstItem | .value =>
      if c = ']' ∧ awaited = .firstItem then .ok closed
      else if c = '[' then .ok ('[' :: opened, some .firstItem, rest)
      else if c = '{' then .ok ('{' :: opened, some .firstMember, rest)
      else
        match skipAtom (c :: rest) with
        | .error fault => .error fault
        | .ok (_, rest) => .ok (opened, behind opened, rest)

theorem length_lt_of_skipPart {opened opened' : List Char} {awaited : Awaited}
    {next : Option Awaited} {t rest : Text}
    (h : skipPart opened awaited t = .ok (opened', next, rest)) : rest.length < t.length := by
  have space := length_skipSpace_le t
  simp only [skipPart] at h
  split at h
  · simp at h
  · rename_i c more hstart
    rw [hstart, List.length_cons] at space
    have part {progress : Progress}
        (h : (.ok progress : Except Fault Progress) = .ok (opened', next, rest))
        (short : progress.2.2.length ≤ more.length) : rest.length < t.length := by
      simp only [Except.ok.injEq] at h
      simp only [h] at short
      omega
    have key (h : skipMemberKey opened more = .ok (opened', next, rest)) :
        rest.length < t.length := by
      have := length_lt_of_skipMemberKey h
      omega
    have fault {why : Fault} (h : (.error why : Except Fault Progress) = .ok (opened', next, rest)) :
        rest.length < t.length := by
      simp at h
    have same := Nat.le_refl more.length
    split at h
    · split at h
      · exact key h
      · exact fault h
    · split at h
      · exact part h same
      · split at h
        · exact part h same
        · exact fault h
    · split at h
      · exact part h same
      · split at h
        · exact part h same
        · exact fault h
    · split at h
      · exact key h
      · split at h
        · exact part h same
        · exact fault h
    all_goals
      split at h
      · exact part h same
      · split at h
        · exact part h same
        · split at h
          · exact part h same
          · split at h
            · exact fault h
            · rename_i hread
              exact part h (Nat.le_of_lt_succ (length_lt_of_skipAtom hread))

/-- Pass over what is awaited and over everything that closes the open brackets. -/
def skipFrom (opened : List Char) (awaited : Awaited) (t : Text) : Except Fault (Unit × Text) :=
  match _part : skipPart opened awaited t with
  | .error fault => .error fault
  | .ok (_, none, rest) => .ok ((), rest)
  | .ok (opened, some next, rest) => skipFrom opened next rest
termination_by t.length
decreasing_by exact length_lt_of_skipPart _part

theorem length_lt_of_skipFrom {opened : List Char} {awaited : Awaited} {t rest : Text} {u : Unit}
    (h : skipFrom opened awaited t = .ok (u, rest)) : rest.length < t.length := by
  fun_induction skipFrom opened awaited t with
  | case1 => simp at h
  | case2 _ _ _ _ _ hpart =>
    simp only [Except.ok.injEq, Prod.mk.injEq, true_and] at h
    exact h ▸ length_lt_of_skipPart hpart
  | case3 _ _ _ _ _ _ hpart ih => exact Nat.lt_trans (ih h) (length_lt_of_skipPart hpart)

/-- Pass over one value. -/
def skipValue : Reader Unit := skipFrom [] .value

end Json

end Scaffold
