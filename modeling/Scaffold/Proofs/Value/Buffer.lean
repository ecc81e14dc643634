import Scaffold.Proofs.Argument.Resolve
import Scaffold.Value.Buffer

/-!
# Buffers that are read

A line of a buffer gives one name a value or takes it away, or it says nothing, or it is
malformed. A buffer with a malformed line is not read, and the first such line is the one
that is reported; otherwise each name is as the last line about it says.
-/

namespace Scaffold

namespace SortedMap

variable {κ β γ : Type} [TextKey κ] {d : SortedMap κ β} {k : κ}

open TextKey (text)

theorem get?_filterMap {f : β → Option γ} : (d.filterMap f).get? k = (d.get? k).bind f := by
  apply Option.ext
  intro v
  rw [← mem_entries_iff, Option.bind_eq_some_iff]
  constructor
  · intro mem
    obtain ⟨⟨k', u⟩, known, made⟩ := List.mem_filterMap.1 mem
    obtain ⟨w, value, same⟩ := Option.map_eq_some_iff.1 made
    obtain ⟨rfl, rfl⟩ := Prod.mk.inj same
    exact ⟨u, mem_entries_iff.1 known, value⟩
  · rintro ⟨u, known, value⟩
    exact List.mem_filterMap.2 ⟨(k, u), mem_entries_iff.2 known, by rw [value]; rfl⟩

/-- Two maps that give every key the same value are one map. -/
theorem ext_get? {other : SortedMap κ β} (same : ∀ k, d.get? k = other.get? k) : d = other := by
  have nodup (d : SortedMap κ β) : d.entries.Nodup := by
    refine d.ascending.imp fun {a b} less => ?_
    rintro rfl
    exact text_lt_irrefl a.1 less
  have perm : d.entries.Perm other.entries := by
    rw [List.perm_ext_iff_of_nodup (nodup d) (nodup other)]
    intro e
    rw [mem_entries_iff, mem_entries_iff, same]
  have entries : d.entries = other.entries := by
    refine perm.eq_of_pairwise (fun a b _ _ less less' => ?_) d.ascending other.ascending
    exact absurd (text_lt_trans less less') (text_lt_irrefl _)
  cases d
  cases other
  simpa using entries

theorem insert_eq_self {v : β} (known : d.get? k = some v) : d.insert k v = d := by
  apply ext_get?
  intro k'
  rw [get?_insert]
  split
  · rename_i same
    rw [TextKey.text_injective _ _ same, known]
  · rfl

theorem insert_insert (d : SortedMap κ β) (k : κ) (u v : β) :
    (d.insert k u).insert k v = d.insert k v := by
  apply ext_get?
  intro k'
  simp only [get?_insert]
  split
  · rfl
  · rfl

theorem find?_append {l more : List (κ × β)} :
    find? k (l ++ more) = (find? k l).or (find? k more) := by
  induction l with
  | nil => rfl
  | cons e l ih =>
    simp only [List.cons_append, find?, ih]
    split <;> rfl

/-- Of entries that are set one after the other, the last one for a key counts. -/
theorem get?_insertAll_reverse {l : List (κ × β)} :
    (d.insertAll l).get? k = (find? k l.reverse).or (d.get? k) := by
  induction l generalizing d with
  | nil => rfl
  | cons e l ih =>
    have step : (d.insertAll (e :: l)).get? k
        = (find? k l.reverse).or ((d.insert e.1 e.2).get? k) := ih
    rw [step, get?_insert, List.reverse_cons, find?_append, Option.or_assoc]
    congr 1
    simp only [find?]
    split <;> rfl

theorem find?_eq_none_iff {l : List (κ × β)} : find? k l = none ↔ k ∉ l.map Prod.fst := by
  induction l with
  | nil => simp [find?]
  | cons e l ih =>
    rw [find?, List.map_cons, List.mem_cons, not_or, ← ih]
    by_cases same : k = e.1
    · simp [same]
    · have differ : text k ≠ text e.1 := fun eq => same (TextKey.text_injective _ _ eq)
      simp [same, differ]

theorem get?_ofList_eq_none_iff {l : List (κ × β)} :
    (ofList l).get? k = none ↔ k ∉ l.map Prod.fst := by
  rw [ofList, get?_insertAll_reverse, get?_empty, Option.or_none, find?_eq_none_iff,
    List.map_reverse, List.mem_reverse]

theorem mem_of_get?_ofList {l : List (κ × β)} {v : β} (h : (ofList l).get? k = some v) :
    (k, v) ∈ l := by
  rw [ofList, get?_insertAll_reverse, get?_empty, Option.or_none] at h
  exact List.mem_reverse.1 (mem_of_find?_eq_some h)

/-- Entries whose keys differ are all in their map. -/
theorem get?_ofList_of_mem {l : List (κ × β)} {v : β} (once : (l.map Prod.fst).Nodup)
    (mem : (k, v) ∈ l) : (ofList l).get? k = some v := by
  cases found : (ofList l).get? k with
  | none => exact absurd (List.mem_map_of_mem mem) (get?_ofList_eq_none_iff.1 found)
  | some u =>
    have same := List.inj_on_of_nodup_map once (mem_of_get?_ofList found) mem rfl
    rw [(Prod.mk.inj same).2]

end SortedMap

namespace EditedValues

variable {edited : EditedValues} {name : Text}

theorem mem_missing_iff : name ∈ edited.missing ↔ edited.get? name = some none := by
  rw [missing, List.mem_map, ← SortedMap.mem_entries_iff]
  constructor
  · rintro ⟨⟨n, value⟩, mem, rfl⟩
    obtain ⟨known, empty⟩ := List.mem_filter.1 mem
    obtain rfl : value = none := Option.isNone_iff_eq_none.1 empty
    exact known
  · intro known
    exact ⟨_, List.mem_filter.2 ⟨known, rfl⟩, rfl⟩

theorem ascending_missing (edited : EditedValues) : edited.missing.Pairwise (· < ·) :=
  List.pairwise_map.2 (edited.ascending.filter _)

theorem get?_toValues : edited.toValues.get? name = (edited.get? name).join :=
  SortedMap.get?_filterMap

end EditedValues

namespace Buffer

/-- A line that is neither blank nor a comment nor cut by a colon. -/
def isMalformed (line : Text) : Bool :=
  Text.trim line ≠ [] && (Text.trim line).head? ≠ some '#' && (Text.cut? ':' (Text.trim line)).isNone

/-- What a line says of a name: its value, or that it has none. -/
def assigned? (line : Text) : Option (Text × Option Text) :=
  if Text.trim line = [] ∨ (Text.trim line).head? = some '#' then none
  else (Text.cut? ':' (Text.trim line)).map fun (name, value) =>
    (Text.trim name, if Text.trim value = [] then none else some (Text.trim value))

variable {found edited : EditedValues} {line t : Text} {ls : List Text} {e : Error}

theorem readLine_of_isMalformed (h : isMalformed line = true) :
    readLine found line = .error (.malformedLine (Text.trim line)) := by
  simp only [isMalformed, ne_eq, decide_not, Bool.and_eq_true, Bool.not_eq_true',
    decide_eq_false_iff_not, Option.isNone_iff_eq_none] at h
  obtain ⟨⟨nonempty, noComment⟩, uncut⟩ := h
  simp [readLine, nonempty, noComment, uncut]

theorem readLine_of_not_isMalformed (h : isMalformed line = false) :
    readLine found line = .ok (found.insertAll (assigned? line).toList) := by
  unfold readLine assigned?
  by_cases skipped : Text.trim line = [] ∨ (Text.trim line).head? = some '#'
  · simp only [skipped, if_true]
    rfl
  · cases cut : Text.cut? ':' (Text.trim line) with
    | none =>
      simp only [isMalformed, cut, Option.isNone_none, Bool.and_true] at h
      rw [not_or] at skipped
      simp [skipped] at h
    | some sides =>
      simp only [skipped, if_false, cut, Option.map_some]
      rfl

theorem readLines_error_iff : readLines found ls = .error e
    ↔ ∃ line, ls.find? isMalformed = some line ∧ e = .malformedLine (Text.trim line) := by
  induction ls generalizing found with
  | nil => simp [readLines]
  | cons line ls ih =>
    rw [readLines, List.find?_cons]
    cases malformed : isMalformed line with
    | true => simp [readLine_of_isMalformed malformed, eq_comm]
    | false => rw [readLine_of_not_isMalformed malformed]; exact ih

theorem readLines_of_find? (wellFormed : ls.find? isMalformed = none) :
    readLines found ls = .ok (found.insertAll (ls.filterMap assigned?)) := by
  induction ls generalizing found with
  | nil => rfl
  | cons line ls ih =>
    rw [List.find?_cons] at wellFormed
    split at wellFormed
    · simp at wellFormed
    · rename_i h
      rw [readLines, readLine_of_not_isMalformed h]
      show readLines _ ls = _
      rw [ih wellFormed]
      cases said : assigned? line with
      | none => rw [List.filterMap_cons_none said]; rfl
      | some entry => rw [List.filterMap_cons_some said]; rfl

/-- A buffer is not read if one of its lines is malformed, and the first such line is
reported. -/
theorem parse_error_iff : parse t = .error e
    ↔ ∃ line, (Text.lines t).find? isMalformed = some line
      ∧ e = .malformedLine (Text.trim line) :=
  readLines_error_iff

/-- A buffer without malformed lines says of each name what its last line about it says. -/
theorem parse_of_find? (wellFormed : (Text.lines t).find? isMalformed = none) :
    parse t = .ok (.ofList ((Text.lines t).filterMap assigned?)) :=
  readLines_of_find? wellFormed

end Buffer

end Scaffold
