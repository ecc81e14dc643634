import Scaffold.Json.Fault
import Scaffold.Text.Basic

/-!
# The lexemes of JSON

Readers for the smallest parts of a JSON text. A reader takes the text from where
a lexeme begins and gives its meaning together with the text behind it, or the
first fault it meets. Texts that end inside a lexeme are truncated; all other
departures from the grammar are malformed.

Reading stops because what a reader leaves is shorter than what it was given. The
lemmas `length_lt_of_…` say so of the readers that take at least one character,
and `length_le_of_…` of the others.
-/

namespace Scaffold

namespace Json

/-- Takes a value from the front of a text and leaves the rest. -/
abbrev Reader (α : Type) := Text → Except Fault (α × Text)

/-- Whether a character may stand between lexemes. -/
def isSpace (c : Char) : Bool := c = ' ' || c = '\n' || c = '\t' || c = '\r'

/-- The text without the space in front of it. -/
def skipSpace (t : Text) : Text := t.dropWhile isSpace

theorem length_skipSpace_le (t : Text) : (skipSpace t).length ≤ t.length :=
  Text.length_dropWhile_le _ t

/-- The value of a hexadecimal digit. -/
def hexValue? (c : Char) : Option Nat :=
  if '0' ≤ c ∧ c ≤ '9' then some (c.toNat - '0'.toNat)
  else if 'a' ≤ c ∧ c ≤ 'f' then some (c.toNat - 'a'.toNat + 10)
  else if 'A' ≤ c ∧ c ≤ 'F' then some (c.toNat - 'A'.toNat + 10)
  else none

/-- Four hexadecimal digits. They are missing only if fewer than four bytes are
left. -/
def readHex4 : Reader Nat := fun t =>
  match t with
  | a :: b :: c :: d :: rest =>
    match hexValue? a, hexValue? b, hexValue? c, hexValue? d with
    | some a, some b, some c, some d => .ok (((a * 16 + b) * 16 + c) * 16 + d, rest)
    | _, _, _, _ => .error .malformed
  | _ => .error (if Text.utf8Length t < 4 then .truncated else .malformed)

theorem length_lt_of_readHex4 {t rest : Text} {n : Nat} (h : readHex4 t = .ok (n, rest)) :
    rest.length < t.length := by
  simp only [readHex4] at h
  split at h
  · split at h
    · simp only [Except.ok.injEq, Prod.mk.injEq] at h
      simp only [← h.2, List.length_cons]
      omega
    · simp at h
  · simp at h

/-- The second half of a pair of surrogates, the first half being `high`. -/
def readLowSurrogate (high : Nat) : Reader Char := fun t =>
  match t with
  | [] => .error .truncated
  | '\\' :: [] => .error .truncated
  | '\\' :: 'u' :: rest =>
    match readHex4 rest with
    | .error fault => .error fault
    | .ok (low, rest) =>
      if 0xDC00 ≤ low ∧ low ≤ 0xDFFF then
        .ok (Char.ofNat (0x10000 + (high - 0xD800) * 0x400 + (low - 0xDC00)), rest)
      else .error .malformed
  | _ => .error .malformed

theorem length_lt_of_readLowSurrogate {high : Nat} {t rest : Text} {c : Char}
    (h : readLowSurrogate high t = .ok (c, rest)) : rest.length < t.length := by
  simp only [readLowSurrogate] at h
  split at h
  · simp at h
  · simp at h
  · split at h
    · simp at h
    · rename_i hread
      have := length_lt_of_readHex4 hread
      split at h
      · simp only [Except.ok.injEq, Prod.mk.injEq] at h
        simp only [← h.2, List.length_cons]
        omega
      · simp at h
  · simp at h

/-- A character given by its code in UTF-16, behind the `\u`. -/
def readUnicodeEscape : Reader Char := fun t =>
  match readHex4 t with
  | .error fault => .error fault
  | .ok (code, rest) =>
    if 0xDC00 ≤ code ∧ code ≤ 0xDFFF then .error .malformed
    else if 0xD800 ≤ code ∧ code ≤ 0xDBFF then readLowSurrogate code rest
    else .ok (Char.ofNat code, rest)

theorem length_lt_of_readUnicodeEscape {t rest : Text} {c : Char}
    (h : readUnicodeEscape t = .ok (c, rest)) : rest.length < t.length := by
  simp only [readUnicodeEscape] at h
  split at h
  · simp at h
  · rename_i hread
    have := length_lt_of_readHex4 hread
    split at h
    · simp at h
    · split at h
      · exact Nat.lt_trans (length_lt_of_readLowSurrogate h) this
      · simp only [Except.ok.injEq, Prod.mk.injEq] at h
        exact h.2 ▸ this

/-- The character that a letter stands for behind a backslash. -/
def simpleEscape? (c : Char) : Option Char :=
  if c = '"' ∨ c = '\\' ∨ c = '/' then some c
  else if c = 'b' then some '\x08'
  else if c = 'f' then some '\x0c'
  else if c = 'n' then some '\n'
  else if c = 'r' then some '\r'
  else if c = 't' then some '\t'
  else none

/-- An escaped character, behind its backslash. -/
def readEscape : Reader Char := fun t =>
  match t with
  | [] => .error .truncated
  | c :: rest =>
    if c = 'u' then readUnicodeEscape rest
    else match simpleEscape? c with
      | some meant => .ok (meant, rest)
      | none => .error .malformed

theorem length_lt_of_readEscape {t rest : Text} {c : Char} (h : readEscape t = .ok (c, rest)) :
    rest.length < t.length := by
  simp only [readEscape] at h
  split at h
  · simp at h
  · split at h
    · exact Nat.lt_succ_of_lt (length_lt_of_readUnicodeEscape h)
    · split at h
      · simp only [Except.ok.injEq, Prod.mk.injEq] at h
        simp [← h.2]
      · simp at h

/-- An escape of which only the form is looked at, behind its backslash. -/
def skipEscape : Reader Unit := fun t =>
  match t with
  | [] => .error .truncated
  | c :: rest =>
    if c = 'u' then
      match readHex4 rest with
      | .error fault => .error fault
      | .ok (_, rest) => .ok ((), rest)
    else if (simpleEscape? c).isSome then .ok ((), rest)
    else .error .malformed

theorem length_lt_of_skipEscape {t rest : Text} {u : Unit} (h : skipEscape t = .ok (u, rest)) :
    rest.length < t.length := by
  simp only [skipEscape] at h
  split at h
  · simp at h
  · split at h
    · split at h
      · simp at h
      · rename_i hread
        simp only [Except.ok.injEq, Prod.mk.injEq, true_and] at h
        exact h ▸ Nat.lt_succ_of_lt (length_lt_of_readHex4 hread)
    · split at h
      · simp only [Except.ok.injEq, Prod.mk.injEq, true_and] at h
        simp [← h]
      · simp at h

/-- A quoted text behind its opening quote. -/
def readQuoted (t : Text) : Except Fault (Text × Text) :=
  match t with
  | [] => .error .truncated
  | '"' :: rest => .ok ([], rest)
  | '\\' :: rest =>
    match _escape : readEscape rest with
    | .error fault => .error fault
    | .ok (c, rest) =>
      match readQuoted rest with
      | .error fault => .error fault
      | .ok (more, rest) => .ok (c :: more, rest)
  | c :: rest =>
    if c.toNat < 0x20 then .error .malformed
    else match readQuoted rest with
      | .error fault => .error fault
      | .ok (more, rest) => .ok (c :: more, rest)
termination_by t.length
decreasing_by
  · exact Nat.lt_succ_of_lt (length_lt_of_readEscape _escape)
  · exact Nat.lt_succ_self _

theorem length_lt_of_readQuoted {t content rest : Text}
    (h : readQuoted t = .ok (content, rest)) : rest.length < t.length := by
  fun_induction readQuoted t generalizing content with
  | case1 => simp at h
  | case2 => simp_all
  | case3 => simp at h
  | case4 => simp at h
  | case5 escaped c after hescape more behind hread ih =>
    simp only [Except.ok.injEq, Prod.mk.injEq] at h
    have := length_lt_of_readEscape hescape
    have := ih (h.2 ▸ hread)
    simp only [List.length_cons]
    omega
  | case6 => simp at h
  | case7 => simp at h
  | case8 c after _ _ _ more behind hread ih =>
    simp only [Except.ok.injEq, Prod.mk.injEq] at h
    exact Nat.lt_succ_of_lt (ih (h.2 ▸ hread))

/-- A quoted text that is passed over, behind its opening quote. Its escapes need
not stand for characters. -/
def skipQuoted (t : Text) : Except Fault (Unit × Text) :=
  match t with
  | [] => .error .truncated
  | '"' :: rest => .ok ((), rest)
  | '\\' :: rest =>
    match _escape : skipEscape rest with
    | .error fault => .error fault
    | .ok (_, rest) => skipQuoted rest
  | c :: rest => if c.toNat < 0x20 then .error .malformed else skipQuoted rest
termination_by t.length
decreasing_by
  · exact Nat.lt_succ_of_lt (length_lt_of_skipEscape _escape)
  · exact Nat.lt_succ_self _

theorem length_lt_of_skipQuoted {t rest : Text} {u : Unit}
    (h : skipQuoted t = .ok (u, rest)) : rest.length < t.length := by
  fun_induction skipQuoted t with
  | case1 => simp at h
  | case2 => simp_all
  | case3 => simp at h
  | case4 escaped _ after hescape ih =>
    have := length_lt_of_skipEscape hescape
    have := ih h
    simp only [List.length_cons]
    omega
  | case5 => simp at h
  | case6 c after _ _ _ ih => exact Nat.lt_succ_of_lt (ih h)

/-- The letters that are left of a word such as `null`. -/
def readWord : Text → Reader Unit
  | [], rest => .ok ((), rest)
  | _ :: _, [] => .error .truncated
  | w :: word, c :: rest => if c = w then readWord word rest else .error .malformed

theorem length_le_of_readWord {word t rest : Text} {u : Unit}
    (h : readWord word t = .ok (u, rest)) : rest.length ≤ t.length := by
  induction word generalizing t with
  | nil => simp_all [readWord]
  | cons w word ih =>
    cases t with
    | nil => simp [readWord] at h
    | cons c t =>
      rw [readWord] at h
      split at h
      · exact Nat.le_succ_of_le (ih h)
      · simp at h

/-- The parts of a number, each in decimal digits. -/
structure NumberParts where
  negative : Bool
  whole : Text
  fraction : Option Text
  /-- The sign and the digits of the exponent. -/
  exponent : Option (Bool × Text)

namespace NumberParts

/-- The number that digits stand for. -/
def value (digits : Text) : Nat :=
  digits.foldl (fun n c => n * 10 + (c.toNat - '0'.toNat)) 0

/-- The number, if it is written with whole digits alone. -/
def nat? (p : NumberParts) : Option Nat :=
  if p.negative ∨ p.fraction.isSome ∨ p.exponent.isSome then none else some (value p.whole)

/-- The whole double nearest to a number, of two the one with the even last digit.
A double has 53 binary digits. -/
def nearestDouble (n : Nat) : Nat :=
  let unit := Nat.pow 2 (n.log2 + 1 - 53)
  let below := n / unit
  let rest := n % unit
  if 2 * rest < unit ∨ (2 * rest = unit ∧ below % 2 = 0) then below * unit else (below + 1) * unit

/-- The least number that no double can be nearest to: halfway between the largest
double and the next power of two. -/
def doubleBound : Nat := Nat.pow 2 1024 - Nat.pow 2 970

/-- The largest power of ten that is a double. -/
def largestPower : Nat := 308

/-- The first digits behind a number, as many of them as 64 bits can hold together
with it, and how many digits are left over. -/
def leading (n : Nat) : Text → Nat × Nat
  | [] => (n, 0)
  | c :: more =>
    let next := n * 10 + (c.toNat - '0'.toNat)
    if next < Nat.pow 2 64 then leading next more else (n, more.length + 1)

/-- Whether the number is too large for a double. It is the product of two doubles:
its leading digits without a point, and the power of ten that they lack. -/
def overflows (p : NumberParts) : Bool :=
  let fraction := p.fraction.getD []
  let (significand, left) := leading 0 (p.whole ++ fraction)
  let exponent : Int :=
    (match p.exponent with
      | none => 0
      | some (negative, digits) => if negative then -(value digits : Int) else value digits)
      - fraction.length + left
  if significand = 0 ∨ exponent < 0 then false
  else if exponent > largestPower then true
  else doubleBound ≤ nearestDouble significand * nearestDouble (Nat.pow 10 exponent.toNat)

end NumberParts

/-- One or more digits; `missing` is the fault if the text ends instead. -/
def readDigits (missing : Fault) : Reader Text := fun t =>
  match t with
  | [] => .error missing
  | c :: _ =>
    if c.isDigit then .ok (t.takeWhile Char.isDigit, t.dropWhile Char.isDigit)
    else .error .malformed

theorem length_lt_of_readDigits {missing : Fault} {t digits rest : Text}
    (h : readDigits missing t = .ok (digits, rest)) : rest.length < t.length := by
  simp only [readDigits] at h
  split at h
  · simp at h
  · rename_i c more
    split at h
    · rename_i hc
      simp only [Except.ok.injEq, Prod.mk.injEq, List.dropWhile_cons_of_pos hc] at h
      exact h.2 ▸ Nat.lt_succ_of_le (Text.length_dropWhile_le _ more)
    · simp at h

/-- The whole digits of a number, which have no leading zero. -/
def readWhole (missing : Fault) : Reader Text := fun t =>
  match t with
  | '0' :: rest =>
    if (rest.head?.any Char.isDigit) then .error .malformed else .ok (['0'], rest)
  | _ => readDigits missing t

theorem length_lt_of_readWhole {missing : Fault} {t digits rest : Text}
    (h : readWhole missing t = .ok (digits, rest)) : rest.length < t.length := by
  simp only [readWhole] at h
  split at h
  · split at h
    · simp at h
    · simp only [Except.ok.injEq, Prod.mk.injEq] at h
      simp [← h.2]
  · exact length_lt_of_readDigits h

/-- The fraction of a number, if there is one. -/
def readFraction (missing : Fault) : Reader (Option Text) := fun t =>
  match t with
  | '.' :: rest =>
    match readDigits missing rest with
    | .error fault => .error fault
    | .ok (digits, rest) => .ok (some digits, rest)
  | _ => .ok (none, t)

theorem length_le_of_readFraction {missing : Fault} {t rest : Text} {digits : Option Text}
    (h : readFraction missing t = .ok (digits, rest)) : rest.length ≤ t.length := by
  simp only [readFraction] at h
  split at h
  · split at h
    · simp at h
    · rename_i hread
      simp only [Except.ok.injEq, Prod.mk.injEq] at h
      exact h.2 ▸ Nat.le_succ_of_le (Nat.le_of_lt (length_lt_of_readDigits hread))
  · simp only [Except.ok.injEq, Prod.mk.injEq] at h
    simp [h.2]

/-- The sign in front of an exponent, which may be missing. -/
def readSign (t : Text) : Bool × Text :=
  match t with
  | '-' :: rest => (true, rest)
  | '+' :: rest => (false, rest)
  | _ => (false, t)

theorem length_readSign_le (t : Text) : (readSign t).2.length ≤ t.length := by
  unfold readSign
  split <;> simp

/-- The exponent of a number, if there is one. -/
def readExponent (missing : Fault) : Reader (Option (Bool × Text)) := fun t =>
  match t with
  | c :: rest =>
    if c = 'e' ∨ c = 'E' then
      match readDigits missing (readSign rest).2 with
      | .error fault => .error fault
      | .ok (digits, after) => .ok (some ((readSign rest).1, digits), after)
    else .ok (none, t)
  | [] => .ok (none, t)

theorem length_le_of_readExponent {missing : Fault} {t rest : Text}
    {exponent : Option (Bool × Text)} (h : readExponent missing t = .ok (exponent, rest)) :
    rest.length ≤ t.length := by
  simp only [readExponent] at h
  split at h
  · rename_i c more
    split at h
    · split at h
      · simp at h
      · rename_i hread
        have := length_lt_of_readDigits hread
        have := length_readSign_le more
        simp only [Except.ok.injEq, Prod.mk.injEq] at h
        simp only [← h.2, List.length_cons]
        omega
    · simp only [Except.ok.injEq, Prod.mk.injEq] at h
      simp [← h.2]
  · simp only [Except.ok.injEq, Prod.mk.injEq] at h
    simp [← h.2]

/-- A number without its sign; `missing` is the fault if the text ends where a digit
must stand. -/
def readUnsigned (missing : Fault) (negative : Bool) : Reader NumberParts := fun t =>
  match readWhole missing t with
  | .error fault => .error fault
  | .ok (whole, t) =>
    match readFraction missing t with
    | .error fault => .error fault
    | .ok (fraction, t) =>
      match readExponent missing t with
      | .error fault => .error fault
      | .ok (exponent, t) => .ok (⟨negative, whole, fraction, exponent⟩, t)

theorem length_lt_of_readUnsigned {missing : Fault} {negative : Bool} {t rest : Text}
    {number : NumberParts} (h : readUnsigned missing negative t = .ok (number, rest)) :
    rest.length < t.length := by
  simp only [readUnsigned] at h
  split at h
  · simp at h
  · rename_i hwhole
    split at h
    · simp at h
    · rename_i hfraction
      split at h
      · simp at h
      · rename_i hexponent
        have := length_lt_of_readWhole hwhole
        have := length_le_of_readFraction hfraction
        have := length_le_of_readExponent hexponent
        simp only [Except.ok.injEq, Prod.mk.injEq] at h
        rw [← h.2]
        omega

/-- A number; `missing` is the fault if the text ends where a digit must stand. -/
def readNumber (missing : Fault) : Reader NumberParts := fun t =>
  match t with
  | '-' :: rest => readUnsigned missing true rest
  | _ => readUnsigned missing false t

theorem length_lt_of_readNumber {missing : Fault} {t rest : Text} {number : NumberParts}
    (h : readNumber missing t = .ok (number, rest)) : rest.length < t.length := by
  simp only [readNumber] at h
  split at h
  · exact Nat.lt_succ_of_lt (length_lt_of_readUnsigned h)
  · exact length_lt_of_readUnsigned h

/-- A number that is not too large for a double. -/
def readBoundedNumber : Reader NumberParts := fun t =>
  match readNumber .truncated t with
  | .error fault => .error fault
  | .ok (number, rest) => if number.overflows then .error .malformed else .ok (number, rest)

theorem length_lt_of_readBoundedNumber {t rest : Text} {number : NumberParts}
    (h : readBoundedNumber t = .ok (number, rest)) : rest.length < t.length := by
  simp only [readBoundedNumber] at h
  split at h
  · simp at h
  · rename_i hread
    split at h
    · simp at h
    · simp only [Except.ok.injEq, Prod.mk.injEq] at h
      exact h.2 ▸ length_lt_of_readNumber hread

end Json

end Scaffold
