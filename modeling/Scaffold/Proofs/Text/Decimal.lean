import Mathlib.Algebra.Group.Nat.Defs
import Scaffold.Text.Basic

/-!
# Decimal digits

A number that is written in decimal digits, padded or not, is read back by folding
over its digits. The two folds of this library, one for JSON and one for instants,
are the same. Scanners take digits as long as there are any, so what follows a
number must not begin with one; `NotDigit` says so of a text.
-/

namespace Scaffold

namespace Text

/-- A text that does not begin with a digit. -/
def NotDigit (t : Text) : Prop := t.head?.any Char.isDigit = false

theorem isDigit_of_mem_ofNat {n : Nat} {c : Char} (h : c ∈ ofNat n) : c.isDigit = true :=
  Nat.isDigit_of_mem_toDigits (by decide) (by decide) h

theorem ofNat_ne_nil (n : Nat) : ofNat n ≠ [] := Nat.toDigits_ne_nil

theorem isDigit_of_mem_ofNatPadded {width n : Nat} {c : Char} (h : c ∈ ofNatPadded width n) :
    c.isDigit = true := by
  rcases List.mem_append.1 h with h | h
  · rw [List.eq_of_mem_replicate h]
    decide
  · exact isDigit_of_mem_ofNat h

theorem ofNatPadded_ne_nil (width n : Nat) : ofNatPadded width n ≠ [] := by
  intro h
  exact ofNat_ne_nil n (List.append_eq_nil_iff.1 h).2

/-- Padding fills up to the width, and a number that fits is not made longer. -/
theorem length_ofNatPadded {width n : Nat} (pos : 0 < width) (h : n < 10 ^ width) :
    (ofNatPadded width n).length = width := by
  have fits : (ofNat n).length ≤ width := (Nat.length_toDigits_le_iff (by decide) pos).2 h
  simp only [ofNatPadded, List.length_append, List.length_replicate]
  omega

private theorem foldl_eq_ofDigitChars (digits : Text) (start : Nat) :
    digits.foldl (fun n c => n * 10 + (c.toNat - '0'.toNat)) start
      = Nat.ofDigitChars 10 digits start := by
  simp only [Nat.ofDigitChars_eq_foldl, Nat.mul_comm]

theorem foldl_ofNat (n : Nat) :
    (ofNat n).foldl (fun n c => n * 10 + (c.toNat - '0'.toNat)) 0 = n := by
  rw [foldl_eq_ofDigitChars]
  exact Nat.ofDigitChars_ten_toDigits

theorem foldl_ofNatPadded (width n : Nat) :
    (ofNatPadded width n).foldl (fun n c => n * 10 + (c.toNat - '0'.toNat)) 0 = n := by
  rw [foldl_eq_ofDigitChars, ofNatPadded, Nat.ofDigitChars_append,
    Nat.ofDigitChars_replicate_zero, Nat.mul_zero]
  exact Nat.ofDigitChars_ten_toDigits

/-- The digits at the front of a text are found again if no digit follows them. -/
theorem takeWhile_isDigit_append {digits rest : Text} (all : ∀ c ∈ digits, c.isDigit = true)
    (stop : NotDigit rest) : (digits ++ rest).takeWhile Char.isDigit = digits := by
  rw [List.takeWhile_append_of_pos all]
  cases rest with
  | nil => simp
  | cons c rest =>
    have hc : c.isDigit = false := stop
    simp [hc]

theorem dropWhile_isDigit_append {digits rest : Text} (all : ∀ c ∈ digits, c.isDigit = true)
    (stop : NotDigit rest) : (digits ++ rest).dropWhile Char.isDigit = rest := by
  rw [List.dropWhile_append_of_pos all]
  cases rest with
  | nil => simp
  | cons c rest =>
    have hc : c.isDigit = false := stop
    simp [hc]

end Text

end Scaffold
