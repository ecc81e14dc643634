import Scaffold.Proofs.Text.Lines
import Scaffold.Proofs.Value.Buffer

/-!
# Buffers that are read as they are shown

A buffer shows one line for each argument, with the value that the argument has. Read as it is,
such a line gives the name of the argument the value that it shows, without the white space
around it; what stands behind the first colon is not looked at, so a value may hold colons,
hash signs and quotes. The comment lines say nothing, so the names that are read are those of
the arguments.
-/

namespace Scaffold

open Placeholder

namespace SortedMap

variable {κ β : Type} [TextKey κ] {d : SortedMap κ β} {k : κ}

theorem mem_keys_iff : k ∈ d.keys ↔ ∃ v, d.get? k = some v := by
  simp [keys, mem_entries_iff]

theorem nodup_keys (d : SortedMap κ β) : d.keys.Nodup := by
  rw [keys, List.nodup_iff_pairwise_ne, List.pairwise_map]
  refine d.ascending.imp fun {a b} less same => ?_
  rw [same] at less
  exact text_lt_irrefl b.1 less

/-- The map of entries has their keys. -/
theorem keys_ofList_perm {l : List (κ × β)} (once : (l.map Prod.fst).Nodup) :
    (ofList l).keys.Perm (l.map Prod.fst) := by
  rw [List.perm_ext_iff_of_nodup (nodup_keys _) once]
  intro k
  rw [mem_keys_iff, ← Option.ne_none_iff_exists', ne_eq, get?_ofList_eq_none_iff, not_not]

end SortedMap

variable {c : Contract} {a : Argument} {values : Values} {n v t : Text}

namespace Buffer

/-! ## One line -/

/-- A line gives the name in front of its first colon the value behind it. -/
theorem assigned?_shown (word : ∀ c ∈ n, isWordChar c = true) :
    assigned? (n ++ ':' :: ' ' :: v)
        = some (n, if Text.trim v = [] then none else some (Text.trim v))
      ∧ isMalformed (n ++ ':' :: ' ' :: v) = false := by
  have solid : ∀ c ∈ n, isBlank c = false := fun c mem => not_isBlank_of_isWordChar (word c mem)
  have colon : ':' ∉ n := fun mem => absurd (word _ mem) (by decide)
  have trimmed : Text.trim (n ++ ':' :: ' ' :: v)
      = n ++ ':' :: Text.dropEndWhile isBlank (' ' :: v) :=
    Text.trim_append_cons solid (by decide)
  have first : (n ++ ':' :: Text.dropEndWhile isBlank (' ' :: v)).head? ≠ some '#' := by
    cases n with
    | nil => simp
    | cons c n =>
      intro comment
      obtain rfl : c = '#' := Option.some.inj comment
      exact absurd (word _ List.mem_cons_self) (by decide)
  have value : Text.trim (Text.dropEndWhile isBlank (' ' :: v)) = Text.trim v := by
    have blank : isBlank ' ' = true := by decide
    rw [Text.trim_dropEndWhile, Text.trim, List.dropWhile_cons_of_pos blank, Text.trim]
  constructor
  · rw [assigned?, trimmed, if_neg (not_or.2 ⟨by simp, first⟩), Text.cut?_append colon]
    simp only [Option.map_some, Text.trim_eq_self solid, value]
  · rw [isMalformed, trimmed, Text.cut?_append colon]
    exact Bool.and_false _

/-- A line with a comment sign in front says nothing. -/
theorem assigned?_comment (t : Text) :
    assigned? ('#' :: t) = none ∧ isMalformed ('#' :: t) = false := by
  have trimmed : Text.trim ([] ++ '#' :: t) = [] ++ '#' :: Text.dropEndWhile isBlank t :=
    Text.trim_append_cons (by simp) (by decide)
  rw [List.nil_append, List.nil_append] at trimmed
  constructor
  · rw [assigned?, trimmed]
    exact if_pos (.inr rfl)
  · rw [isMalformed, trimmed]
    rfl

theorem assigned?_dropReturn : assigned? (Text.dropReturn t) = assigned? t := by
  simp only [assigned?, Text.trim_dropReturn]

theorem isMalformed_dropReturn : isMalformed (Text.dropReturn t) = isMalformed t := by
  simp only [isMalformed, Text.trim_dropReturn]

/-! ## The whole buffer -/

/-- The comment lines, without the line feeds. -/
def headerLines : List Text :=
  ["# Please provide values for the following variables.".toList,
    "# Lines starting with '#' are ignored; leave a value empty to unset it.".toList]

theorem headerLines_say_nothing : ∀ line ∈ headerLines,
    '\n' ∉ line ∧ assigned? line = none ∧ isMalformed line = false := by
  have comments : ∀ line ∈ headerLines, '\n' ∉ line ∧ line.head? = some '#' := by decide +kernel
  intro line mem
  obtain ⟨oneLine, comment⟩ := comments line mem
  obtain ⟨t, rfl⟩ := List.head?_eq_some_iff.1 comment
  exact ⟨oneLine, assigned?_comment t⟩

/-- The lines of a buffer, without the line feeds. -/
def shownLines (c : Contract) (values : Values) : List Text :=
  headerLines ++ c.map fun a => a.name ++ ':' :: ' ' :: shownValue values a

theorem render_eq_flatMap :
    render c values = (shownLines c values).flatMap fun line => line ++ ['\n'] := by
  have front : header = headerLines.flatMap fun line => line ++ ['\n'] := by decide +kernel
  rw [render, front, shownLines, List.flatMap_append, List.flatMap_map]
  rfl

/-- What a buffer says of an argument: the value that it shows, without the white space around
it, or that it has none. -/
def saidOf (values : Values) (a : Argument) : Text × Option Text :=
  (a.name, if Text.trim (shownValue values a) = [] then none
    else some (Text.trim (shownValue values a)))

theorem map_fst_saidOf (values : Values) (c : Contract) :
    (c.map (saidOf values)).map Prod.fst = c.names := by
  rw [List.map_map]
  rfl

/-- Where no value goes over the end of a line, what a buffer shows is what is read. -/
theorem parse_render (words : ∀ a ∈ c, ∀ ch ∈ a.name, isWordChar ch = true)
    (oneLine : ∀ a ∈ c, '\n' ∉ shownValue values a) :
    parse (render c values) = .ok (.ofList (c.map (saidOf values))) := by
  have inside : ∀ line ∈ shownLines c values, '\n' ∉ line ∧ isMalformed line = false := by
    intro line mem
    rcases List.mem_append.1 mem with comment | mem
    · obtain ⟨oneLine, _, wellFormed⟩ := headerLines_say_nothing line comment
      exact ⟨oneLine, wellFormed⟩
    · obtain ⟨a, there, rfl⟩ := List.mem_map.1 mem
      have name : '\n' ∉ a.name := fun mem => absurd (words a there _ mem) (by decide)
      exact ⟨by simp [name, oneLine a there], (assigned?_shown (words a there)).2⟩
  have lines : Text.lines (render c values) = (shownLines c values).map Text.dropReturn := by
    rw [render_eq_flatMap, Text.lines_flatMap fun line mem => (inside line mem).1]
  have readable : (Text.lines (render c values)).find? isMalformed = none := by
    rw [lines, List.find?_eq_none]
    intro line mem
    obtain ⟨shown, there, rfl⟩ := List.mem_map.1 mem
    rw [isMalformed_dropReturn, (inside shown there).2]
    exact Bool.false_ne_true
  have comments : headerLines.filterMap assigned? = [] :=
    List.filterMap_eq_nil_iff.2 fun line mem => (headerLines_say_nothing line mem).2.1
  have said : (Text.lines (render c values)).filterMap assigned? = c.map (saidOf values) := by
    have same : assigned? ∘ Text.dropReturn = assigned? := funext fun _ => assigned?_dropReturn
    rw [lines, List.filterMap_map, same, shownLines, List.filterMap_append, comments,
      List.nil_append, List.filterMap_map, ← List.filterMap_eq_map]
    exact List.filterMap_congr fun a mem => (assigned?_shown (words a mem)).1
  rw [parse_of_find? readable, said]

/-- A buffer that is read as it is shown has the names of the contract and no others. Each has
the value that it was shown with, which is the current one, else the default, without the white
space around it, and none if nothing is left of that. -/
theorem parse_render_as_shown (once : c.names.Nodup)
    (words : ∀ a ∈ c, ∀ ch ∈ a.name, isWordChar ch = true)
    (oneLine : ∀ a ∈ c, '\n' ∉ shownValue values a) :
    ∃ edited, parse (render c values) = .ok edited ∧ edited.keys.Perm c.names
      ∧ (∀ a ∈ c, edited.get? a.name = some (if Text.trim (shownValue values a) = [] then none
        else some (Text.trim (shownValue values a))))
      ∧ ∀ n, n ∉ c.names → edited.get? n = none := by
  have distinct : ((c.map (saidOf values)).map Prod.fst).Nodup := map_fst_saidOf values c ▸ once
  refine ⟨_, parse_render words oneLine, ?_, ?_, ?_⟩
  · rw [← map_fst_saidOf values c]
    exact SortedMap.keys_ofList_perm distinct
  · intro a mem
    exact SortedMap.get?_ofList_of_mem distinct (List.mem_map_of_mem (f := saidOf values) mem)
  · intro n absent
    rwa [SortedMap.get?_ofList_eq_none_iff, map_fst_saidOf]

/-- Arguments with a default that holds colons and a hash sign between white space, with a
default that is replaced, with one that is a comment sign, and without a default. -/
def awkwardContract : Contract :=
  [⟨"url".toList, some " http://a:80/#b\r".toList⟩, ⟨"note".toList, some "none".toList⟩,
    ⟨"_".toList, some "#".toList⟩, ⟨"free".toList, none⟩]

/-- White space in the place of a default, and a value for another name. -/
def awkwardValues : Values :=
  .insert (.insert .empty "note".toList "\u00A0\t\r".toList) "other".toList "\"x\"".toList

/-- Only the white space around a value is lost, and a value without anything else. -/
theorem parse_render_as_shown_awkward :
    ∃ edited, parse (render awkwardContract awkwardValues) = .ok edited
      ∧ edited.keys.Perm ["url".toList, "note".toList, "_".toList, "free".toList]
      ∧ edited.get? "url".toList = some (some "http://a:80/#b".toList)
      ∧ edited.get? "note".toList = some none
      ∧ edited.get? "_".toList = some (some ['#'])
      ∧ edited.get? "free".toList = some none
      ∧ edited.get? "other".toList = none := by
  have once : awkwardContract.names.Nodup := by decide +kernel
  have words : ∀ a ∈ awkwardContract, a.name.all isWordChar = true := by decide +kernel
  have oneLine : ∀ a ∈ awkwardContract, '\n' ∉ shownValue awkwardValues a := by decide +kernel
  obtain ⟨edited, read, keys, said, others⟩ := parse_render_as_shown once
    (fun a mem => List.all_eq_true.1 (words a mem)) oneLine
  refine ⟨edited, read, keys, ?_, ?_, ?_, ?_, others _ (by decide +kernel)⟩
  · exact said ⟨"url".toList, some " http://a:80/#b\r".toList⟩ (by simp [awkwardContract])
  · exact said ⟨"note".toList, some "none".toList⟩ (by simp [awkwardContract])
  · exact said ⟨"_".toList, some "#".toList⟩ (by simp [awkwardContract])
  · exact said ⟨"free".toList, none⟩ (by simp [awkwardContract])

end Buffer

end Scaffold
