import Scaffold.Text.Basic

/-!
# Settings documents

A settings file is a TOML document. All settings are texts or lists of texts at
the top level, so a document with tables, dotted keys or values of another sort
cannot be meant, and it is refused together with those that are no TOML at all.
What is left are comments and lines `key = value`, with the four kinds of quoted
text and with lists that may run over several lines.
-/

namespace Scaffold

namespace Document

/-- A value of a setting. -/
inductive Value where
  | text (t : Text)
  | list (items : List Text)
  deriving DecidableEq

/-- Takes something from the front of a document, if it is there. -/
abbrev Reader (α : Type) := Text → Option (α × Text)

/-- Whether a character may stand in comments and quoted texts. -/
def isPrintable (c : Char) : Bool := c = '\t' || (0x20 ≤ c.toNat && c.toNat ≠ 0x7F)

/-- The text without spaces and tabs in front of it. -/
def skipSpace (t : Text) : Text := t.dropWhile fun c => c = ' ' || c = '\t'

theorem length_skipSpace_le (t : Text) : (skipSpace t).length ≤ t.length :=
  Text.length_dropWhile_le _ t

/-- The text behind the end of a line. -/
def endOfLine? : Text → Option Text
  | '\n' :: rest => some rest
  | '\r' :: '\n' :: rest => some rest
  | _ => none

theorem length_lt_of_endOfLine? {t rest : Text} (h : endOfLine? t = some rest) :
    rest.length < t.length := by
  unfold endOfLine? at h
  split at h
  · simp_all
  · simp only [Option.some.injEq] at h
    simp only [← h, List.length_cons]
    omega
  · simp at h

/-- The text without the comment in front of it. -/
def skipComment (t : Text) : Text :=
  match t with
  | '#' :: rest => rest.dropWhile isPrintable
  | _ => t

theorem length_skipComment_le (t : Text) : (skipComment t).length ≤ t.length := by
  unfold skipComment
  split
  · exact Nat.le_succ_of_le (Text.length_dropWhile_le _ _)
  · exact Nat.le_refl _

/-- The text without spaces, comments and line ends in front of it. -/
def skipLines (t : Text) : Text :=
  match _end : endOfLine? (skipComment (skipSpace t)) with
  | none => skipComment (skipSpace t)
  | some rest => skipLines rest
termination_by t.length
decreasing_by
  exact Nat.lt_of_lt_of_le (length_lt_of_endOfLine? _end)
    (Nat.le_trans (length_skipComment_le _) (length_skipSpace_le _))

theorem length_skipLines_le (t : Text) : (skipLines t).length ≤ t.length := by
  fun_induction skipLines t with
  | case1 t => exact Nat.le_trans (length_skipComment_le _) (length_skipSpace_le _)
  | case2 t rest hend ih =>
    have := length_lt_of_endOfLine? hend
    have := length_skipComment_le (skipSpace t)
    have := length_skipSpace_le t
    omega

/-- The text without spaces, tabs and line ends in front of it. -/
def skipGaps (t : Text) : Text :=
  match _end : endOfLine? (skipSpace t) with
  | none => skipSpace t
  | some rest => skipGaps rest
termination_by t.length
decreasing_by exact Nat.lt_of_lt_of_le (length_lt_of_endOfLine? _end) (length_skipSpace_le _)

theorem length_skipGaps_le (t : Text) : (skipGaps t).length ≤ t.length := by
  fun_induction skipGaps t with
  | case1 t => exact length_skipSpace_le t
  | case2 t rest hend ih =>
    have := length_lt_of_endOfLine? hend
    have := length_skipSpace_le t
    omega

/-- The character of a code point, which must not be a surrogate. -/
def charOf? (n : Nat) : Option Char :=
  if n < 0xD800 ∨ (0xDFFF < n ∧ n < 0x110000) then some (Char.ofNat n) else none

/-- The value of a hexadecimal digit. -/
def hexValue? (c : Char) : Option Nat :=
  if '0' ≤ c ∧ c ≤ '9' then some (c.toNat - '0'.toNat)
  else if 'a' ≤ c ∧ c ≤ 'f' then some (c.toNat - 'a'.toNat + 10)
  else if 'A' ≤ c ∧ c ≤ 'F' then some (c.toNat - 'A'.toNat + 10)
  else none

/-- A character given by `n` hexadecimal digits. -/
def readHexChar (n : Nat) : Reader Char := fun t =>
  let written := t.take n
  if written.length < n then none
  else
    match written.mapM hexValue? with
    | none => none
    | some digits =>
      (charOf? (digits.foldl (fun m d => m * 16 + d) 0)).map fun c => (c, t.drop n)

theorem length_le_of_readHexChar {n : Nat} {t rest : Text} {c : Char}
    (h : readHexChar n t = some (c, rest)) : rest.length ≤ t.length := by
  simp only [readHexChar] at h
  split at h
  · simp at h
  · split at h
    · simp at h
    · obtain ⟨_, _, heq⟩ := Option.map_eq_some_iff.1 h
      simp only [Prod.mk.injEq] at heq
      simp [← heq.2]

/-- An escaped character behind its backslash. -/
def readEscape : Reader Char := fun t =>
  match t with
  | 'b' :: rest => some ('\x08', rest)
  | 't' :: rest => some ('\t', rest)
  | 'n' :: rest => some ('\n', rest)
  | 'f' :: rest => some ('\x0c', rest)
  | 'r' :: rest => some ('\r', rest)
  | '"' :: rest => some ('"', rest)
  | '\\' :: rest => some ('\\', rest)
  | 'u' :: rest => readHexChar 4 rest
  | 'U' :: rest => readHexChar 8 rest
  | _ => none

theorem length_lt_of_readEscape {t rest : Text} {c : Char} (h : readEscape t = some (c, rest)) :
    rest.length < t.length := by
  simp only [readEscape] at h
  split at h
  case h_8 => exact Nat.lt_succ_of_le (length_le_of_readHexChar h)
  case h_9 => exact Nat.lt_succ_of_le (length_le_of_readHexChar h)
  case h_10 => simp at h
  all_goals
    simp only [Option.some.injEq, Prod.mk.injEq] at h
    simp [← h.2]

/-- A text in single quotes behind the first of them. -/
def readLiteral : Reader Text := fun t =>
  let inner := t.takeWhile fun c => isPrintable c && c ≠ '\''
  match t.dropWhile fun c => isPrintable c && c ≠ '\'' with
  | '\'' :: rest => some (inner, rest)
  | _ => none

theorem length_lt_of_readLiteral {t inner rest : Text} (h : readLiteral t = some (inner, rest)) :
    rest.length < t.length := by
  simp only [readLiteral] at h
  split at h
  · rename_i hstop
    have short := Text.length_dropWhile_le (fun c => isPrintable c && decide (c ≠ '\'')) t
    rw [hstop] at short
    simp only [Option.some.injEq, Prod.mk.injEq] at h
    exact h.2 ▸ short
  · simp at h

/-- A text in double quotes behind the first of them. -/
def readBasic (t : Text) : Option (Text × Text) :=
  match t with
  | [] => none
  | '"' :: rest => some ([], rest)
  | '\\' :: rest =>
    match _escape : readEscape rest with
    | none => none
    | some (c, rest) => (readBasic rest).map fun (more, rest) => (c :: more, rest)
  | c :: rest =>
    if isPrintable c then (readBasic rest).map fun (more, rest) => (c :: more, rest) else none
termination_by t.length
decreasing_by
  · exact Nat.lt_succ_of_lt (length_lt_of_readEscape _escape)
  · exact Nat.lt_succ_self _

theorem length_lt_of_readBasic {t inner rest : Text} (h : readBasic t = some (inner, rest)) :
    rest.length < t.length := by
  fun_induction readBasic t generalizing inner with
  | case1 => simp at h
  | case2 => simp_all
  | case3 => simp at h
  | case4 _ _ _ hescape ih =>
    obtain ⟨⟨more, after⟩, hmore, heq⟩ := Option.map_eq_some_iff.1 h
    simp only [Prod.mk.injEq] at heq
    have := length_lt_of_readEscape hescape
    have := ih (heq.2 ▸ hmore)
    simp only [List.length_cons]
    omega
  | case5 _ _ _ _ _ ih =>
    obtain ⟨⟨more, after⟩, hmore, heq⟩ := Option.map_eq_some_iff.1 h
    simp only [Prod.mk.injEq] at heq
    exact Nat.lt_succ_of_lt (ih (heq.2 ▸ hmore))
  | case6 => simp at h

/-- What a run of quotes does inside a text of several lines: up to two of them
belong to the text, and three close it, with up to two in front. -/
def closing? (quotes : Nat) : Option (Option Nat) :=
  if quotes < 3 then some none
  else if quotes ≤ 5 then some (some (quotes - 3))
  else none

/-- A text of several lines up to its closing quotes. Between double quotes a
backslash escapes a character, or the end of its line together with all blanks
and line ends that follow. -/
def readLong (quote : Char) (t : Text) : Option (Text × Text) :=
  match t with
  | [] => none
  | c :: rest =>
    if c = quote then
      let run := quote :: rest.takeWhile (· = quote)
      match closing? run.length with
      | none => none
      | some (some inner) => some (List.replicate inner quote, rest.dropWhile (· = quote))
      | some none =>
        (readLong quote (rest.dropWhile (· = quote))).map fun (more, rest) => (run ++ more, rest)
    else if c = '\\' ∧ quote = '"' then
      match _below : endOfLine? (skipSpace rest) with
      | some below => readLong quote (skipGaps below)
      | none =>
        match _escape : readEscape rest with
        | none => none
        | some (meant, after) =>
          (readLong quote after).map fun (more, rest) => (meant :: more, rest)
    else
      match _end : endOfLine? (c :: rest) with
      | some after => (readLong quote after).map fun (more, rest) => ('\n' :: more, rest)
      | none =>
        if isPrintable c then (readLong quote rest).map fun (more, rest) => (c :: more, rest)
        else none
termination_by t.length
decreasing_by
  · exact Nat.lt_succ_of_le (Text.length_dropWhile_le _ rest)
  · have := length_lt_of_endOfLine? _below
    have := length_skipGaps_le below
    have := length_skipSpace_le rest
    simp only [List.length_cons]
    omega
  · exact Nat.lt_succ_of_lt (length_lt_of_readEscape _escape)
  · exact length_lt_of_endOfLine? _end
  · exact Nat.lt_succ_self _

theorem length_lt_of_readLong {quote : Char} {t inner rest : Text}
    (h : readLong quote t = some (inner, rest)) : rest.length < t.length := by
  have further {t : Text} {front : Text → Text}
      (ih : ∀ {inner}, readLong quote t = some (inner, rest) → rest.length < t.length)
      {inner : Text}
      (h : (readLong quote t).map (fun (more, rest) => (front more, rest)) = some (inner, rest)) :
      rest.length < t.length := by
    obtain ⟨⟨more, after⟩, hmore, heq⟩ := Option.map_eq_some_iff.1 h
    simp only [Prod.mk.injEq] at heq
    exact ih (heq.2 ▸ hmore)
  fun_induction readLong quote t generalizing inner with
  | case1 => simp at h
  | case2 => simp at h
  | case3 =>
    simp only [Option.some.injEq, Prod.mk.injEq] at h
    exact h.2 ▸ Nat.lt_succ_of_le (Text.length_dropWhile_le _ _)
  | case4 =>
    rename_i ih
    exact Nat.lt_succ_of_lt (Nat.lt_of_lt_of_le (further ih h)
      (Text.length_dropWhile_le _ _))
  | case5 _ rest' _ _ below hbelow ih =>
    have := length_lt_of_endOfLine? hbelow
    have := length_skipGaps_le below
    have := length_skipSpace_le rest'
    have := ih h
    simp only [List.length_cons]
    omega
  | case6 => simp at h
  | case7 _ _ _ _ _ _ _ hescape ih =>
    have := length_lt_of_readEscape hescape
    have := further ih h
    simp only [List.length_cons]
    omega
  | case8 _ _ _ _ _ hend ih =>
    exact Nat.lt_trans (further ih h) (length_lt_of_endOfLine? hend)
  | case9 _ _ _ _ _ _ ih => exact Nat.lt_succ_of_lt (further ih h)
  | case10 => simp at h

/-- The text without the line end right behind opening quotes. -/
def skipFirstLineEnd (t : Text) : Text := (endOfLine? t).getD t

theorem length_skipFirstLineEnd_le (t : Text) : (skipFirstLineEnd t).length ≤ t.length := by
  unfold skipFirstLineEnd
  cases h : endOfLine? t with
  | none => simp
  | some rest => exact Nat.le_of_lt (length_lt_of_endOfLine? h)

/-- A quoted text of any kind. -/
def readText : Reader Text := fun t =>
  match t with
  | '"' :: '"' :: '"' :: rest => readLong '"' (skipFirstLineEnd rest)
  | '"' :: rest => readBasic rest
  | '\'' :: '\'' :: '\'' :: rest => readLong '\'' (skipFirstLineEnd rest)
  | '\'' :: rest => readLiteral rest
  | _ => none

theorem length_lt_of_readText {t inner rest : Text} (h : readText t = some (inner, rest)) :
    rest.length < t.length := by
  have long {quote a b c : Char} {more : Text}
      (h : readLong quote (skipFirstLineEnd more) = some (inner, rest)) :
      rest.length < (a :: b :: c :: more).length := by
    have := length_lt_of_readLong h
    have := length_skipFirstLineEnd_le more
    simp only [List.length_cons]
    omega
  simp only [readText] at h
  split at h
  · exact long h
  · exact Nat.lt_succ_of_lt (length_lt_of_readBasic h)
  · exact long h
  · exact Nat.lt_succ_of_lt (length_lt_of_readLiteral h)
  · simp at h

/-- What stands behind an item of a list: whether the list goes on, and the text
behind the comma or the closing bracket. -/
def behindItem? (t : Text) : Option (Bool × Text) :=
  match skipLines t with
  | ',' :: rest => some (true, rest)
  | ']' :: rest => some (false, rest)
  | _ => none

theorem length_lt_of_behindItem? {t rest : Text} {more : Bool}
    (h : behindItem? t = some (more, rest)) : rest.length < t.length := by
  have lines := length_skipLines_le t
  simp only [behindItem?] at h
  split at h
  case h_3 => simp at h
  all_goals
    rename_i hstart
    rw [hstart, List.length_cons] at lines
    simp only [Option.some.injEq, Prod.mk.injEq] at h
    rw [← h.2]
    omega

/-- The items of a list behind its opening bracket or behind a comma. -/
def readItems (t : Text) : Option (List Text × Text) :=
  match _start : skipLines t with
  | ']' :: rest => some ([], rest)
  | start =>
    match _item : readText start with
    | none => none
    | some (item, behind) =>
      match _comma : behindItem? behind with
      | none => none
      | some (false, rest) => some ([item], rest)
      | some (true, rest) => (readItems rest).map fun (more, rest) => (item :: more, rest)
termination_by t.length
decreasing_by
  have := length_lt_of_behindItem? _comma
  have := length_lt_of_readText _item
  have := length_skipLines_le t
  rw [_start] at this
  omega

theorem length_lt_of_readItems {t rest : Text} {items : List Text}
    (h : readItems t = some (items, rest)) : rest.length < t.length := by
  fun_induction readItems t generalizing items with
  | case1 t _ hstart =>
    have := length_skipLines_le t
    simp only [Option.some.injEq, Prod.mk.injEq] at h
    rw [hstart, List.length_cons, h.2] at this
    omega
  | case2 => simp at h
  | case3 => simp at h
  | case4 t _ _ _ hbehind _ hitem =>
    have := length_lt_of_behindItem? hbehind
    have := length_lt_of_readText hitem
    have := length_skipLines_le t
    simp only [Option.some.injEq, Prod.mk.injEq] at h
    rw [← h.2]
    omega
  | case5 t _ _ _ hbehind _ hitem ih =>
    obtain ⟨⟨more, after⟩, hmore, heq⟩ := Option.map_eq_some_iff.1 h
    simp only [Prod.mk.injEq] at heq
    have := length_lt_of_behindItem? hbehind
    have := length_lt_of_readText hitem
    have := length_skipLines_le t
    have := ih (heq.2 ▸ hmore)
    omega

/-- A value. -/
def readValue : Reader Value := fun t =>
  match t with
  | '[' :: rest => (readItems rest).map fun (items, rest) => (.list items, rest)
  | _ => (readText t).map fun (text, rest) => (.text text, rest)

theorem length_lt_of_readValue {t rest : Text} {value : Value}
    (h : readValue t = some (value, rest)) : rest.length < t.length := by
  simp only [readValue] at h
  split at h
  · obtain ⟨⟨items, after⟩, hread, heq⟩ := Option.map_eq_some_iff.1 h
    simp only [Prod.mk.injEq] at heq
    exact heq.2 ▸ Nat.lt_succ_of_lt (length_lt_of_readItems hread)
  · obtain ⟨⟨text, after⟩, hread, heq⟩ := Option.map_eq_some_iff.1 h
    simp only [Prod.mk.injEq] at heq
    exact heq.2 ▸ length_lt_of_readText hread

/-- Whether a character may stand in a key without quotes. -/
def isBareKeyChar (c : Char) : Bool := c.isAlphanum || c = '_' || c = '-'

/-- A key. -/
def readKey : Reader Text := fun t =>
  match t with
  | '"' :: rest => readBasic rest
  | '\'' :: rest => readLiteral rest
  | _ =>
    let key := t.takeWhile isBareKeyChar
    if key = [] then none else some (key, t.dropWhile isBareKeyChar)

theorem length_le_of_readKey {t key rest : Text} (h : readKey t = some (key, rest)) :
    rest.length ≤ t.length := by
  simp only [readKey] at h
  split at h
  · exact Nat.le_succ_of_le (Nat.le_of_lt (length_lt_of_readBasic h))
  · exact Nat.le_succ_of_le (Nat.le_of_lt (length_lt_of_readLiteral h))
  · split at h
    · simp at h
    · simp only [Option.some.injEq, Prod.mk.injEq] at h
      exact h.2 ▸ Text.length_dropWhile_le _ t

/-- The text behind the end of a line, in front of which a comment may stand. The
end of the document ends a line too. -/
def finishLine? (t : Text) : Option Text :=
  match skipComment (skipSpace t) with
  | [] => some []
  | rest => endOfLine? rest

theorem length_le_of_finishLine? {t rest : Text} (h : finishLine? t = some rest) :
    rest.length ≤ t.length := by
  have comment := length_skipComment_le (skipSpace t)
  have space := length_skipSpace_le t
  simp only [finishLine?] at h
  split at h
  · simp only [Option.some.injEq] at h
    simp [← h]
  · have := length_lt_of_endOfLine? h
    omega

/-- A line `key = value` up to the end of the line, where `t` starts with the key. -/
def readSetting : Reader (Text × Value) := fun t =>
  match readKey t with
  | none => none
  | some (key, rest) =>
    match skipSpace rest with
    | '=' :: rest =>
      match readValue (skipSpace rest) with
      | none => none
      | some (value, rest) => (finishLine? rest).map fun rest => ((key, value), rest)
    | _ => none

theorem length_lt_of_readSetting {t rest : Text} {setting : Text × Value}
    (h : readSetting t = some (setting, rest)) : rest.length < t.length := by
  simp only [readSetting] at h
  split at h
  · simp at h
  · rename_i behind hkey
    have := length_le_of_readKey hkey
    have := length_skipSpace_le behind
    split at h
    · rename_i after hequal
      split at h
      · simp at h
      · rename_i hvalue
        obtain ⟨last, hlast, heq⟩ := Option.map_eq_some_iff.1 h
        simp only [Prod.mk.injEq] at heq
        have := length_lt_of_readValue hvalue
        have := length_skipSpace_le after
        have := length_le_of_finishLine? hlast
        simp only [hequal, List.length_cons] at *
        rw [← heq.2]
        omega
    · simp at h

/-- The settings of a document in order. -/
def readSettings (t : Text) : Option (List (Text × Value)) :=
  match _start : skipLines t with
  | [] => some []
  | c :: more =>
    match _setting : readSetting (c :: more) with
    | none => none
    | some (setting, rest) => (readSettings rest).map (setting :: ·)
termination_by t.length
decreasing_by
  have := length_lt_of_readSetting _setting
  have := length_skipLines_le t
  rw [_start] at this
  omega

/-- Read a document. A byte order mark may stand in front of it, and no key may
be given twice. -/
def parse? (t : Text) : Option (List (Text × Value)) :=
  let body :=
    match t with
    | '\uFEFF' :: rest => rest
    | _ => t
  (readSettings body).filter fun settings => decide (settings.map Prod.fst).Nodup

end Document

end Scaffold
