import Mathlib.Data.List.Induction
import Scaffold.Proofs.Path.Steps
import Scaffold.Proofs.Placeholder.Spelling

/-!
# Lines and the white space around them

Lines that are written one after the other, each with a line feed behind it, are read back
but for a carriage return at the end of one. Trimming does not see that carriage return, nor
any other white space at the end.
-/

namespace Scaffold

namespace Text

variable {line before after t : Text} {sep c : Char}

/-- The line without a carriage return at its end. -/
def dropReturn (line : Text) : Text := if endsIn '\r' line then line.dropLast else line

/-- What is written with a line feed behind each line has these lines. -/
theorem lines_flatMap {ls : List Text} (h : ∀ line ∈ ls, '\n' ∉ line) :
    lines (ls.flatMap fun line => line ++ ['\n']) = ls.map dropReturn := by
  have pieces : split '\n' (ls.flatMap fun line => line ++ ['\n']) = ls ++ [[]] := by
    induction ls with
    | nil => rfl
    | cons line ls ih =>
      rw [List.flatMap_cons, List.append_assoc, List.singleton_append, split_append_cons,
        split_of_not_mem (h line List.mem_cons_self),
        ih fun line mem => h line (List.mem_cons_of_mem _ mem)]
      rfl
  simp [lines, pieces, dropReturn]

/-! ## Trimming -/

theorem dropEndWhile_concat {p : Char → Bool} (h : p c = true) :
    dropEndWhile p (t ++ [c]) = dropEndWhile p t := by
  simp [dropEndWhile, h]

theorem dropEndWhile_append_cons {p : Char → Bool} (h : p c = false) :
    dropEndWhile p (before ++ c :: t) = before ++ c :: dropEndWhile p t := by
  have back : (before ++ c :: t).reverse = t.reverse ++ c :: before.reverse := by simp
  rw [dropEndWhile, dropEndWhile, back, List.dropWhile_append]
  split
  · rename_i none
    rw [List.isEmpty_iff.1 none, List.dropWhile_cons_of_neg (by simp [h])]
    simp
  · simp

theorem trim_concat (h : isBlank c = true) : trim (t ++ [c]) = trim t := by
  rw [trim, trim, List.dropWhile_append]
  split
  · rename_i none
    rw [List.isEmpty_iff.1 none]
    simp [h]
  · exact dropEndWhile_concat h

theorem trim_dropEndWhile : trim (dropEndWhile isBlank t) = trim t := by
  induction t using List.reverseRecOn with
  | nil => rfl
  | append_singleton t c ih =>
    by_cases h : isBlank c = true
    · rw [dropEndWhile_concat h, trim_concat h, ih]
    · have kept : dropEndWhile isBlank (t ++ [c]) = t ++ [c] :=
        dropEndWhile_append_cons (Bool.eq_false_iff.2 h)
      rw [kept]

theorem trim_dropReturn : trim (dropReturn line) = trim line := by
  rw [dropReturn]
  split
  · rename_i ends
    have last : line.getLast? = some '\r' := beq_iff_eq.1 ends
    obtain ⟨front, rfl⟩ := List.getLast?_eq_some_iff.1 last
    have blank : isBlank '\r' = true := by decide
    rw [List.dropLast_concat, trim_concat blank]
  · rfl

/-- What stands behind a text without white space keeps the white space at its front. -/
theorem trim_append_cons (solid : ∀ d ∈ before, isBlank d = false) (h : isBlank c = false) :
    trim (before ++ c :: after) = before ++ c :: dropEndWhile isBlank after := by
  have front : (before ++ c :: after).dropWhile isBlank = before ++ c :: after := by
    cases before with
    | nil => simp [h]
    | cons d before => simp [solid d List.mem_cons_self]
  rw [trim, front, dropEndWhile_append_cons h]

theorem not_mem_of_cut? (h : cut? sep t = some (before, after)) : sep ∉ before := by
  induction t generalizing before with
  | nil => simp [cut?] at h
  | cons c t ih =>
    rw [cut?] at h
    split at h
    · simp only [Option.some.injEq, Prod.mk.injEq] at h
      rw [← h.1]
      exact List.not_mem_nil
    · rename_i differ
      obtain ⟨⟨front, back⟩, found, same⟩ := Option.map_eq_some_iff.1 h
      obtain ⟨rfl, rfl⟩ := Prod.mk.inj same
      intro mem
      rcases List.mem_cons.1 mem with rfl | mem
      · exact differ rfl
      · exact ih found mem

end Text

end Scaffold
