import Scaffold.Json.Layout
import Scaffold.Json.Shape
import Scaffold.Proofs.Text.Decimal

/-!
# Written lexemes are read back

What `Layout` writes for a text or a number is taken from the front of a text by the
reader of that lexeme, which leaves exactly what was written behind it. Texts end with
their quote, so nothing is asked of what follows. A number ends where its digits do,
so no digit, point or exponent may follow it.
-/

namespace Scaffold

namespace Json

/-- A text in front of which a number has come to its end. -/
def EndsNumber (t : Text) : Prop :=
  t.head?.all (fun c => !c.isDigit && c ≠ '.' && c ≠ 'e' && c ≠ 'E') = true

theorem EndsNumber.notDigit {t : Text} (h : EndsNumber t) : Text.NotDigit t := by
  cases t with
  | nil => rfl
  | cons c rest =>
    simp only [EndsNumber, List.head?_cons, Option.all_some, Bool.and_eq_true,
      Bool.not_eq_true'] at h
    simpa [Text.NotDigit] using h.1.1.1

/-- The space in front of a value is passed over as a whole. -/
theorem skipSpace_append {space : Text} (h : ∀ c ∈ space, isSpace c = true) (t : Text) :
    skipSpace (space ++ t) = skipSpace t :=
  List.dropWhile_append_of_pos h

theorem skipSpace_cons_of_not {c : Char} (h : isSpace c = false) (t : Text) :
    skipSpace (c :: t) = c :: t := by
  simp [skipSpace, h]

/-! ## Quoted texts -/

private theorem readHex4_hexByte (rest : Text) :
    ∀ n < 0x20, readHex4 ('0' :: '0' :: Layout.hexByte n ++ rest) = .ok (n, rest) := by
  intro n hn
  have digits : ∀ n < 0x20, hexValue? (Nat.digitChar (n / 16)) = some (n / 16)
      ∧ hexValue? (Nat.digitChar (n % 16)) = some (n % 16) := by decide
  obtain ⟨high, low⟩ := digits n hn
  have zero : hexValue? '0' = some 0 := by decide
  simp only [Layout.hexByte, readHex4, List.cons_append, List.nil_append, zero, high, low]
  congr 2
  omega

/-- A control character is written by its code, which is no surrogate. -/
private theorem readEscape_control {c : Char} (h : c.toNat < 0x20) (rest : Text) :
    readEscape ('u' :: '0' :: '0' :: Layout.hexByte c.toNat ++ rest) = .ok (c, rest) := by
  have hex := readHex4_hexByte rest c.toNat h
  have low : ¬ 0xDC00 ≤ c.toNat := by omega
  have high : ¬ 0xD800 ≤ c.toNat := by omega
  simp only [List.cons_append] at hex
  simp [readEscape, readUnicodeEscape, hex, low, high, Char.ofNat_toNat]

private theorem readQuoted_cons_escaped {c : Char} {escaped rest content behind : Text}
    (escape : readEscape (escaped ++ rest) = .ok (c, rest))
    (more : readQuoted rest = .ok (content, behind)) :
    readQuoted ('\\' :: escaped ++ rest) = .ok (c :: content, behind) := by
  rw [List.cons_append, readQuoted]
  split
  · rename_i h
    simp [escape] at h
  · rename_i h
    rw [escape] at h
    simp only [Except.ok.injEq, Prod.mk.injEq] at h
    obtain ⟨rfl, rfl⟩ := h
    simp [more]

/-- One written character is read back in front of any quoted text. -/
theorem readQuoted_escape_append (c : Char) {rest content behind : Text}
    (more : readQuoted rest = .ok (content, behind)) :
    readQuoted (Layout.escape c ++ rest) = .ok (c :: content, behind) := by
  have simple {letter : Char} (hu : letter ≠ 'u') (hs : simpleEscape? letter = some c) :
      readQuoted ('\\' :: [letter] ++ rest) = .ok (c :: content, behind) :=
    readQuoted_cons_escaped (by simp [readEscape, hu, hs]) more
  unfold Layout.escape
  split
  · subst c
    exact simple (by decide) (by decide)
  split
  · subst c
    exact simple (by decide) (by decide)
  split
  · subst c
    exact simple (by decide) (by decide)
  split
  · subst c
    exact simple (by decide) (by decide)
  split
  · subst c
    exact simple (by decide) (by decide)
  split
  · subst c
    exact simple (by decide) (by decide)
  split
  · subst c
    exact simple (by decide) (by decide)
  split
  · rename_i control
    exact readQuoted_cons_escaped (readEscape_control control rest) more
  · rename_i quote backslash _ _ _ _ _ control
    rw [List.singleton_append, readQuoted]
    · simp [control, more]
    · exact quote
    · exact backslash

/-- A quoted text is read back from behind its opening quote. -/
theorem readQuoted_flatMap_escape (t rest : Text) :
    readQuoted (t.flatMap Layout.escape ++ '"' :: rest) = .ok (t, rest) := by
  induction t with
  | nil => simp [readQuoted]
  | cons c t ih =>
    rw [List.flatMap_cons, List.append_assoc]
    exact readQuoted_escape_append c ih

private theorem skipQuoted_cons_escaped {escaped rest : Text}
    (escape : skipEscape (escaped ++ rest) = .ok ((), rest)) :
    skipQuoted ('\\' :: escaped ++ rest) = skipQuoted rest := by
  rw [List.cons_append, skipQuoted]
  split
  · rename_i h
    simp [escape] at h
  · rename_i h
    rw [escape] at h
    simp only [Except.ok.injEq, Prod.mk.injEq, true_and] at h
    rw [h]

/-- One written character is passed over in front of any quoted text. -/
theorem skipQuoted_escape_append (c : Char) (rest : Text) :
    skipQuoted (Layout.escape c ++ rest) = skipQuoted rest := by
  have simple {letter : Char} (hu : letter ≠ 'u') (hs : (simpleEscape? letter).isSome = true) :
      skipQuoted ('\\' :: [letter] ++ rest) = skipQuoted rest :=
    skipQuoted_cons_escaped (by simp [skipEscape, hu, hs])
  unfold Layout.escape
  split
  · exact simple (by decide) (by decide)
  split
  · exact simple (by decide) (by decide)
  split
  · exact simple (by decide) (by decide)
  split
  · exact simple (by decide) (by decide)
  split
  · exact simple (by decide) (by decide)
  split
  · exact simple (by decide) (by decide)
  split
  · exact simple (by decide) (by decide)
  split
  · rename_i control
    have hex := readHex4_hexByte rest c.toNat control
    exact skipQuoted_cons_escaped (by simp only [List.cons_append] at hex ⊢; simp [skipEscape, hex])
  · rename_i quote backslash _ _ _ _ _ control
    rw [List.singleton_append, skipQuoted]
    · simp [control]
    · exact quote
    · exact backslash

/-- A quoted text is passed over from behind its opening quote. -/
theorem skipQuoted_flatMap_escape (t rest : Text) :
    skipQuoted (t.flatMap Layout.escape ++ '"' :: rest) = .ok ((), rest) := by
  induction t with
  | nil => simp [skipQuoted]
  | cons c t ih => rw [List.flatMap_cons, List.append_assoc, skipQuoted_escape_append, ih]

/-! ## Numbers -/

private theorem readDigits_append (missing : Fault) {digits rest : Text} (some : digits ≠ [])
    (all : ∀ c ∈ digits, c.isDigit = true) (stop : Text.NotDigit rest) :
    readDigits missing (digits ++ rest) = .ok (digits, rest) := by
  cases digits with
  | nil => exact absurd rfl some
  | cons d digits =>
    have hd := all d List.mem_cons_self
    have taken := Text.takeWhile_isDigit_append all stop
    have left := Text.dropWhile_isDigit_append all stop
    rw [List.cons_append] at taken left ⊢
    simp only [readDigits, hd, if_true, taken, left]

/-- The first digit of a number other than zero is not zero. -/
private theorem head?_ofNat_ne_zero {n : Nat} (h : n ≠ 0) : (Text.ofNat n).head? ≠ some '0' := by
  induction n using Nat.strongRecOn with
  | ind n ih =>
    rw [Text.ofNat, Nat.toDigits_eq_if (by decide)]
    split
    · rename_i small
      have digits : ∀ n < 10, n ≠ 0 → Nat.digitChar n ≠ '0' := by decide
      simpa using digits n small h
    · have front := ih (n / 10) (by omega) (by omega)
      rw [Text.ofNat] at front
      cases digits : Nat.toDigits 10 (n / 10) with
      | nil => exact absurd digits Nat.toDigits_ne_nil
      | cons d more =>
        rw [digits] at front
        exact front

theorem readWhole_ofNat {missing : Fault} {n : Nat} {rest : Text} (stop : Text.NotDigit rest) :
    readWhole missing (Text.ofNat n ++ rest) = .ok (Text.ofNat n, rest) := by
  by_cases zero : n = 0
  · subst zero
    have single : Text.ofNat 0 = ['0'] := Nat.toDigits_zero 10
    have behind : rest.head?.any Char.isDigit = false := stop
    simp only [single, List.singleton_append, readWhole, behind, Bool.false_eq_true, if_false]
  · have digits := readDigits_append missing (Text.ofNat_ne_nil n)
      (fun c => Text.isDigit_of_mem_ofNat) stop
    rw [readWhole]
    · exact digits
    · intro more h
      apply head?_ofNat_ne_zero zero
      cases written : Text.ofNat n with
      | nil => exact absurd written (Text.ofNat_ne_nil n)
      | cons d digits =>
        rw [written] at h
        exact congrArg List.head? h

private theorem readFraction_none {missing : Fault} {t : Text} (stop : EndsNumber t) :
    readFraction missing t = .ok (none, t) := by
  cases t with
  | nil => rfl
  | cons c rest =>
    rw [readFraction]
    intro more h
    have stops : (c.isDigit = false ∧ c ≠ '.') ∧ c ≠ 'e' ∧ c ≠ 'E' := by
      simpa [EndsNumber, and_assoc] using stop
    exact stops.1.2 (List.cons.inj h).1

private theorem readExponent_none {missing : Fault} {t : Text} (stop : EndsNumber t) :
    readExponent missing t = .ok (none, t) := by
  cases t with
  | nil => rfl
  | cons c rest =>
    have stops : (c.isDigit = false ∧ c ≠ '.') ∧ c ≠ 'e' ∧ c ≠ 'E' := by
      simpa [EndsNumber, and_assoc] using stop
    simp [readExponent, stops.2.1, stops.2.2]

/-- A written number is read back as its digits alone. -/
theorem readNumber_ofNat {missing : Fault} {n : Nat} {rest : Text} (stop : EndsNumber rest) :
    readNumber missing (Text.ofNat n ++ rest) = .ok (⟨false, Text.ofNat n, none, none⟩, rest) := by
  have unsigned : readUnsigned missing false (Text.ofNat n ++ rest)
      = .ok (⟨false, Text.ofNat n, none, none⟩, rest) := by
    simp only [readUnsigned, readWhole_ofNat stop.notDigit, readFraction_none stop,
      readExponent_none stop]
  rw [readNumber]
  · exact unsigned
  · intro more h
    cases written : Text.ofNat n with
    | nil => exact absurd written (Text.ofNat_ne_nil n)
    | cons d digits =>
      rw [written] at h
      have digit : d.isDigit = true := Text.isDigit_of_mem_ofNat (written ▸ List.mem_cons_self)
      rw [(List.cons.inj h).1] at digit
      exact absurd digit (by decide)

namespace NumberParts

@[simp] theorem value_ofNat (n : Nat) : value (Text.ofNat n) = n := Text.foldl_ofNat n

/-- As long as 64 bits hold the number, no digit of it is left over. -/
private theorem leading_eq_foldl {digits : Text} {start : Nat}
    (small : digits.foldl (fun n c => n * 10 + (c.toNat - '0'.toNat)) start < Nat.pow 2 64) :
    leading start digits
      = (digits.foldl (fun n c => n * 10 + (c.toNat - '0'.toNat)) start, 0) := by
  have grows : ∀ (digits : Text) (start : Nat),
      start ≤ digits.foldl (fun n c => n * 10 + (c.toNat - '0'.toNat)) start := by
    intro digits
    induction digits with
    | nil => exact fun start => Nat.le_refl start
    | cons c digits ih =>
      intro start
      exact Nat.le_trans (by omega) (ih (start * 10 + (c.toNat - '0'.toNat)))
  induction digits generalizing start with
  | nil => rfl
  | cons c digits ih =>
    have next := Nat.lt_of_le_of_lt (grows digits (start * 10 + (c.toNat - '0'.toNat))) small
    simp only [leading, if_pos next, List.foldl_cons]
    exact ih small

/-- A number of at most 53 binary digits is a double. -/
private theorem nearestDouble_eq {n : Nat} (h : n < 2 ^ 53) : nearestDouble n = n := by
  have digits : n.log2 + 1 - 53 = 0 := by
    by_cases zero : n = 0
    · subst zero
      decide
    · have := (Nat.log2_lt zero).2 h
      omega
  simp [nearestDouble, digits, Nat.mod_one]

private theorem wordBound_le_doubleBound : wordBound ≤ doubleBound := by
  unfold doubleBound
  -- The exponents become variables, since powers of this size are not to be computed.
  generalize hm : 1024 = m
  generalize hk : 970 = k
  have apart : m = k + 54 := by omega
  have word : wordBound ≤ 2 ^ k := Nat.pow_le_pow_right (n := 2) (i := 32) (by decide) (by omega)
  rw [apart, Nat.pow_eq, Nat.pow_eq, Nat.pow_add]
  omega

/-- A number of 32 bits is not too large for a double. -/
theorem overflows_ofNat {n : Nat} (h : n < wordBound) :
    overflows ⟨false, Text.ofNat n, none, none⟩ = false := by
  have small : n < Nat.pow 2 64 := Nat.lt_trans h (by decide)
  have double : n < 2 ^ 53 := Nat.lt_trans h (by decide)
  have bound : n < doubleBound := Nat.lt_of_lt_of_le h wordBound_le_doubleBound
  have digits : leading 0 (Text.ofNat n) = (n, 0) := by
    rw [leading_eq_foldl (by rw [Text.foldl_ofNat]; exact small), Text.foldl_ofNat]
  have one : nearestDouble 1 = 1 := nearestDouble_eq (by decide)
  simp [overflows, digits, nearestDouble_eq double, one, largestPower, bound]

end NumberParts

end Json

end Scaffold
