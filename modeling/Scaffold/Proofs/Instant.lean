import Mathlib.Data.List.Induction
import Mathlib.Data.List.TakeWhile
import Scaffold.Instant
import Scaffold.Proofs.Text.Decimal

/-!
# Written instants are read back

An instant that exists and that the calendar reaches is read back from its stored form.
Each part of the stored form is taken by the reader of that part, which leaves the parts
behind it; the offset is zero, so nothing is added in the end. Whatever else is read as an
instant exists as well: the offset moves it by less than a day, and the calendar still has to
reach it then.
-/

namespace Scaffold

namespace Date

private theorem daysInMonth_pos (year : Int) (month : Nat) : 1 ≤ daysInMonth year month := by
  unfold daysInMonth
  repeat' split
  all_goals omega

theorem isValid_next {d : Date} (h : d.isValid = true) : d.next.isValid = true := by
  simp only [isValid, Bool.and_eq_true, decide_eq_true_eq] at h
  unfold next
  split
  · simp only [isValid, Bool.and_eq_true, decide_eq_true_eq]
    omega
  · split
    · have days := daysInMonth_pos d.year (d.month + 1)
      simp only [isValid, Bool.and_eq_true, decide_eq_true_eq]
      omega
    · have days := daysInMonth_pos (d.year + 1) 1
      simp only [isValid, Bool.and_eq_true, decide_eq_true_eq]
      omega

theorem isValid_previous {d : Date} (h : d.isValid = true) : d.previous.isValid = true := by
  simp only [isValid, Bool.and_eq_true, decide_eq_true_eq] at h
  unfold previous
  split
  · simp only [isValid, Bool.and_eq_true, decide_eq_true_eq]
    omega
  · split
    · have days := daysInMonth_pos d.year (d.month - 1)
      simp only [isValid, Bool.and_eq_true, decide_eq_true_eq]
      omega
    · simp [isValid, daysInMonth]

end Date

namespace Instant

/-- The instant exists, perhaps as a leap second, and the calendar reaches it. -/
structure IsProper (i : Instant) : Prop where
  date : i.date.isValid = true
  calendar : isCalendarDate i.date = true
  hour : i.hour < 24
  minute : i.minute < 60
  second : i.second ≤ 60
  nanos : i.nanos < 10 ^ 9

/-- What the clock shows is proper as long as the calendar reaches it. -/
theorem IsProper.of_isRegular {i : Instant} (regular : i.isRegular = true)
    (calendar : isCalendarDate i.date = true) : i.IsProper := by
  simp only [isRegular, Bool.and_eq_true, decide_eq_true_eq] at regular
  obtain ⟨⟨⟨⟨date, hour⟩, minute⟩, second⟩, nanos⟩ := regular
  exact ⟨date, calendar, hour, minute, Nat.le_of_lt second, nanos⟩

theorem isProper_epoch : epoch.IsProper := .of_isRegular (by decide) (by decide)

private theorem isBlank_of_isDigit {c : Char} (h : c.isDigit = true) : isBlank c = false := by
  have digits : ∀ n < 128, (Char.ofNat n).isDigit = true → isBlank (Char.ofNat n) = false := by
    decide
  have small : c.toNat < 128 := by
    simp only [Char.isDigit, Bool.and_eq_true, decide_eq_true_eq] at h
    have le : c.toNat ≤ '9'.toNat := h.2
    exact Nat.lt_of_le_of_lt le (by decide)
  rw [← Char.ofNat_toNat c] at h ⊢
  exact digits c.toNat small h

private theorem skipBlank_cons {c : Char} (h : isBlank c = false) (t : Text) :
    skipBlank (c :: t) = c :: t := by
  simp [skipBlank, h]

private theorem skipBlank_digits {digits rest : Text} (some : digits ≠ [])
    (all : ∀ c ∈ digits, c.isDigit = true) :
    skipBlank (digits ++ rest) = digits ++ rest := by
  obtain ⟨d, more, rfl⟩ := List.exists_cons_of_ne_nil some
  exact skipBlank_cons (isBlank_of_isDigit (all d List.mem_cons_self)) _

/-- Digits that fill the width are read whatever follows them. -/
private theorem readNumber_full (width n : Nat) (pos : 0 < width) (h : n < 10 ^ width)
    (rest : Text) : readNumber width (Text.ofNatPadded width n ++ rest) = some (n, rest) := by
  have all : ∀ c ∈ Text.ofNatPadded width n, c.isDigit = true := fun c =>
    Text.isDigit_of_mem_ofNatPadded
  have len := Text.length_ofNatPadded pos h
  have taken : ((Text.ofNatPadded width n ++ rest).take width).takeWhile Char.isDigit
      = Text.ofNatPadded width n := by
    rw [List.take_left' len]
    exact List.takeWhile_eq_self_iff.2 all
  simp only [readNumber, skipBlank_digits (Text.ofNatPadded_ne_nil width n) all, taken,
    Text.ofNatPadded_ne_nil, if_false, List.drop_left]
  rw [digitsValue, Text.foldl_ofNatPadded]

/-- Behind a sign all digits belong to the year. -/
private theorem readNumber_all (width n : Nat) {rest : Text} (stop : Text.NotDigit rest) :
    readNumber (Text.ofNatPadded width n ++ rest).length (Text.ofNatPadded width n ++ rest)
      = some (n, rest) := by
  have all : ∀ c ∈ Text.ofNatPadded width n, c.isDigit = true := fun c =>
    Text.isDigit_of_mem_ofNatPadded
  simp only [readNumber, skipBlank_digits (Text.ofNatPadded_ne_nil width n) all, List.take_length,
    Text.takeWhile_isDigit_append all stop, Text.ofNatPadded_ne_nil, if_false, List.drop_left]
  rw [digitsValue, Text.foldl_ofNatPadded]

private theorem head?_ofNatPadded_append (width n : Nat) (rest : Text) :
    ((Text.ofNatPadded width n ++ rest).head?.any Char.isDigit) = true := by
  obtain ⟨d, more, digits⟩ := List.exists_cons_of_ne_nil (Text.ofNatPadded_ne_nil width n)
  have digit : d.isDigit = true := Text.isDigit_of_mem_ofNatPadded (digits ▸ List.mem_cons_self)
  simp [digits, digit]

private theorem readYear_yearText (year : Int) (rest : Text) :
    readYear (yearText year ++ '-' :: rest) = some (year, '-' :: rest) := by
  have stop : Text.NotDigit ('-' :: rest) := rfl
  unfold yearText
  split
  · rename_i range
    have four := readNumber_full 4 year.toNat (by decide) (by omega) ('-' :: rest)
    obtain ⟨d, more, digits⟩ := List.exists_cons_of_ne_nil
      (Text.ofNatPadded_ne_nil 4 year.toNat)
    have digit : d.isDigit = true :=
      Text.isDigit_of_mem_ofNatPadded (digits ▸ List.mem_cons_self)
    rw [digits, List.cons_append] at four ⊢
    rw [readYear, skipBlank_cons (isBlank_of_isDigit digit)]
    split
    · rename_i front
      rw [(List.cons.inj front).1] at digit
      exact absurd digit (by decide)
    · rename_i front
      rw [(List.cons.inj front).1] at digit
      exact absurd digit (by decide)
    · have back : (year.toNat : Int) = year := Int.toNat_of_nonneg range.1
      simp only [four, Option.map_some, back]
  · have digits := readNumber_all 4 year.natAbs stop
    have front := head?_ofNatPadded_append 4 year.natAbs ('-' :: rest)
    split
    · rename_i negative
      rw [List.cons_append, readYear, skipBlank_cons (by decide)]
      simp only [front, if_true, digits, Option.map_some]
      rw [Int.ofNat_natAbs_of_nonpos (by omega), Int.neg_neg]
    · rename_i positive
      rw [List.cons_append, readYear, skipBlank_cons (by decide)]
      simp only [front, if_true, digits, Option.map_some]
      rw [Int.natAbs_of_nonneg (by omega)]

private theorem readMark_cons (mark : Char) (h : isBlank mark = false) (rest : Text) :
    readMark mark (mark :: rest) = some rest := by
  simp [readMark, skipBlank_cons h]

private theorem readFraction_padded {width n : Nat} (pos : 0 < width) (small : width ≤ 9)
    (h : n < 10 ^ width) {rest : Text} (stop : Text.NotDigit rest) :
    readFraction ('.' :: Text.ofNatPadded width n ++ rest) = some (n * 10 ^ (9 - width), rest) := by
  have all : ∀ c ∈ Text.ofNatPadded width n, c.isDigit = true := fun c =>
    Text.isDigit_of_mem_ofNatPadded
  have len := Text.length_ofNatPadded pos h
  simp only [List.cons_append, readFraction, Text.takeWhile_isDigit_append all stop,
    Text.ofNatPadded_ne_nil, if_false, List.take_of_length_le (len ▸ small), List.drop_left,
    Nat.pow_eq]
  rw [digitsValue, Text.foldl_ofNatPadded, len]

private theorem readFraction_fractionText {nanos : Nat} (h : nanos < 10 ^ 9) (rest : Text) :
    readFraction (fractionText nanos ++ 'Z' :: rest) = some (nanos, 'Z' :: rest) := by
  have stop : Text.NotDigit ('Z' :: rest) := rfl
  unfold fractionText
  split
  · rename_i zero
    subst zero
    rfl
  split
  · rename_i millis
    rw [readFraction_padded (by decide) (by decide) (by omega) stop]
    simp only [Nat.reduceSub, Nat.reducePow]
    rw [Nat.div_mul_cancel (Nat.dvd_of_mod_eq_zero millis)]
  split
  · rename_i micros
    rw [readFraction_padded (by decide) (by decide) (by omega) stop]
    simp only [Nat.reduceSub, Nat.reducePow]
    rw [Nat.div_mul_cancel (Nat.dvd_of_mod_eq_zero micros)]
  · rw [readFraction_padded (by decide) (by decide) h stop]
    simp

private theorem addMinutes_zero {i : Instant} (h : i.IsProper) : addMinutes i 0 = i := by
  have hour := h.hour
  have minute := h.minute
  have whole : ((i.hour * 60 + i.minute + 0 : Int)).toNat = i.hour * 60 + i.minute := by omega
  have low : ¬ ((i.hour * 60 + i.minute + 0 : Int) < 0) := by omega
  have high : ¬ ((i.hour * 60 + i.minute + 0 : Int) ≥ 1440) := by omega
  have hours : (i.hour * 60 + i.minute) / 60 = i.hour := by omega
  have minutes : (i.hour * 60 + i.minute) % 60 = i.minute := by omega
  simp only [addMinutes, low, high, if_false, whole, hours, minutes]

/-- A proper instant is read back from its stored form. -/
theorem parse?_render {i : Instant} (h : i.IsProper) : parse? (render i) = some i := by
  obtain ⟨date, calendar, hour, minute, second, nanos⟩ := id h
  have valid := date
  simp only [Date.isValid, Bool.and_eq_true, decide_eq_true_eq] at valid
  have days : daysInMonth i.date.year i.date.month ≤ 31 := by
    unfold daysInMonth
    repeat' split
    all_goals omega
  have written : render i = yearText i.date.year ++ '-' :: (Text.ofNatPadded 2 i.date.month
      ++ '-' :: (Text.ofNatPadded 2 i.date.day ++ 'T' :: (Text.ofNatPadded 2 i.hour
      ++ ':' :: (Text.ofNatPadded 2 i.minute ++ ':' :: (Text.ofNatPadded 2 i.second
      ++ (fractionText i.nanos ++ ['Z'])))))) := by
    simp [render, dateText, timeText]
  have offset : readOffset (skipBlank ['Z']) = some (0, []) := by decide
  have moved : addMinutes ⟨⟨i.date.year, i.date.month, i.date.day⟩, i.hour, i.minute, i.second,
      i.nanos⟩ 0 = i :=
    addMinutes_zero h
  have blank : skipBlank [] = [] := rfl
  rw [written, parse?]
  refine Option.bind_eq_some_iff.2 ⟨_, readYear_yearText _ _, ?_⟩
  refine Option.bind_eq_some_iff.2 ⟨_, readMark_cons '-' (by decide) _, ?_⟩
  refine Option.bind_eq_some_iff.2 ⟨_, readNumber_full 2 _ (by decide) (by omega) _, ?_⟩
  refine Option.bind_eq_some_iff.2 ⟨_, readMark_cons '-' (by decide) _, ?_⟩
  refine Option.bind_eq_some_iff.2 ⟨_, readNumber_full 2 _ (by decide) (by omega) _, ?_⟩
  refine Option.bind_eq_some_iff.2 ⟨_, readNumber_full 2 _ (by decide) (by omega) _, ?_⟩
  refine Option.bind_eq_some_iff.2 ⟨_, readMark_cons ':' (by decide) _, ?_⟩
  refine Option.bind_eq_some_iff.2 ⟨_, readNumber_full 2 _ (by decide) (by omega) _, ?_⟩
  refine Option.bind_eq_some_iff.2 ⟨_, readMark_cons ':' (by decide) _, ?_⟩
  refine Option.bind_eq_some_iff.2 ⟨_, readNumber_full 2 _ (by decide) (by omega) _, ?_⟩
  refine Option.bind_eq_some_iff.2 ⟨_, readFraction_fractionText nanos _, ?_⟩
  refine Option.bind_eq_some_iff.2 ⟨_, offset, ?_⟩
  simp [moved, blank, date, calendar, hour, minute, second]

/-! ## What is read -/

private theorem digitsValue_lt {digits : Text} (all : ∀ c ∈ digits, c.isDigit = true) :
    digitsValue digits < 10 ^ digits.length := by
  induction digits using List.reverseRecOn with
  | nil => simp [digitsValue]
  | append_singleton digits c ih =>
    have before := ih fun d mem => all d (List.mem_append_left _ mem)
    have digit := all c (by simp)
    have small : c.toNat ≤ '9'.toNat := by
      simp only [Char.isDigit, Bool.and_eq_true, decide_eq_true_eq] at digit
      exact digit.2
    rw [show '9'.toNat = 57 from rfl] at small
    rw [digitsValue, List.foldl_append, ← digitsValue, List.length_append, List.length_singleton,
      Nat.pow_succ, List.foldl_cons, List.foldl_nil, show '0'.toNat = 48 from rfl]
    omega

/-- A fraction is less than a second. -/
private theorem readFraction_lt {t rest : Text} {nanos : Nat}
    (h : readFraction t = some (nanos, rest)) : nanos < 10 ^ 9 := by
  unfold readFraction at h
  split at h
  · rename_i written
    dsimp only at h
    split at h
    · simp at h
    · obtain ⟨rfl, _⟩ := Prod.mk.inj (Option.some.inj h)
      have short := List.length_take_le 9 (written.takeWhile Char.isDigit)
      have value : digitsValue ((written.takeWhile Char.isDigit).take 9)
          < 10 ^ ((written.takeWhile Char.isDigit).take 9).length :=
        digitsValue_lt fun c mem => List.mem_takeWhile_imp (List.mem_of_mem_take mem)
      have whole := Nat.mul_lt_mul_of_pos_right value (Nat.pow_pos (n := 9 -
        ((written.takeWhile Char.isDigit).take 9).length) (show 0 < 10 by decide))
      rwa [← Nat.pow_add, Nat.add_sub_cancel' short] at whole
  · obtain ⟨rfl, _⟩ := Prod.mk.inj (Option.some.inj h)
    decide

/-- Moved by less than a day, an instant stays one of a day that exists. -/
private theorem addMinutes_valid (i : Instant) {minutes : Int} (date : i.date.isValid = true)
    (hour : i.hour < 24) (minute : i.minute < 60) (less : minutes.natAbs < 1440) :
    (addMinutes i minutes).date.isValid = true ∧ (addMinutes i minutes).hour < 24
      ∧ (addMinutes i minutes).minute < 60 := by
  unfold addMinutes
  dsimp only
  split
  · exact ⟨Date.isValid_previous date, by dsimp only; omega, by dsimp only; omega⟩
  · split
    · exact ⟨Date.isValid_next date, by dsimp only; omega, by dsimp only; omega⟩
    · exact ⟨date, by dsimp only; omega, by dsimp only; omega⟩

/-- What is read as an instant can be stored again. -/
theorem isProper_of_parse? {t : Text} {i : Instant} (h : parse? t = some i) : i.IsProper := by
  unfold parse? at h
  obtain ⟨⟨year, _⟩, _, h⟩ := Option.bind_eq_some_iff.1 h
  obtain ⟨_, _, h⟩ := Option.bind_eq_some_iff.1 h
  obtain ⟨⟨month, _⟩, _, h⟩ := Option.bind_eq_some_iff.1 h
  obtain ⟨_, _, h⟩ := Option.bind_eq_some_iff.1 h
  obtain ⟨⟨day, _⟩, _, h⟩ := Option.bind_eq_some_iff.1 h
  dsimp only at h
  split at h
  · split at h
    · obtain ⟨_, _, h⟩ := Option.bind_eq_some_iff.1 h
      obtain ⟨⟨hour, _⟩, _, h⟩ := Option.bind_eq_some_iff.1 h
      obtain ⟨_, _, h⟩ := Option.bind_eq_some_iff.1 h
      obtain ⟨⟨minute, _⟩, _, h⟩ := Option.bind_eq_some_iff.1 h
      obtain ⟨_, _, h⟩ := Option.bind_eq_some_iff.1 h
      obtain ⟨⟨second, _⟩, _, h⟩ := Option.bind_eq_some_iff.1 h
      obtain ⟨⟨nanos, _⟩, fraction, h⟩ := Option.bind_eq_some_iff.1 h
      obtain ⟨⟨offset, _⟩, _, h⟩ := Option.bind_eq_some_iff.1 h
      dsimp only at h
      split at h
      · rename_i checked
        obtain ⟨_, date, _, hours, minutes, seconds, small, calendar⟩ := checked
        obtain rfl := Option.some.inj h
        obtain ⟨valid, hourOfDay, minuteOfHour⟩ := addMinutes_valid
          ⟨⟨year, month, day⟩, hour, minute, second, nanos⟩ date hours minutes
          (show (-offset).natAbs < 1440 by simpa using small)
        exact ⟨valid, calendar, hourOfDay, minuteOfHour, seconds, readFraction_lt fraction⟩
      · simp at h
    · simp at h
  · simp at h

end Instant

end Scaffold
