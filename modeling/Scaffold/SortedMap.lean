import Scaffold.Text.Basic

/-!
# Sorted maps

A sorted map is a finite map whose keys are texts or are named by texts. Its
entries are kept in ascending order of these texts, character by character,
which for UTF-8 is also the order of the bytes. A key occurs once, so two
maps that give the same answers are equal.
-/

namespace Scaffold

/-- Keys that are told apart by a text. -/
class TextKey (κ : Type) where
  /-- The text of a key. -/
  text : κ → Text
  /-- Keys with one text are one key. -/
  text_injective : ∀ a b, text a = text b → a = b

instance : TextKey Text where
  text := id
  text_injective _ _ h := h

/-- A finite map, its entries in ascending order of the keys. -/
structure SortedMap (κ β : Type) [TextKey κ] where
  /-- The entries, each key once. -/
  entries : List (κ × β)
  /-- The keys ascend. -/
  ascending : entries.Pairwise fun a b => TextKey.text a.1 < TextKey.text b.1

namespace SortedMap

variable {κ β γ : Type} [TextKey κ]

open TextKey (text)

theorem text_lt_trans {a b c : κ} (h₁ : text a < text b) (h₂ : text b < text c) :
    text a < text c := List.lt_trans h₁ h₂

theorem text_lt_irrefl (a : κ) : ¬ text a < text a := List.lt_irrefl _

theorem lt_of_not_lt_of_ne {a b : κ} (h : ¬ text a < text b) (hne : text a ≠ text b) :
    text b < text a := by
  rcases List.le_iff_lt_or_eq.1 (List.not_lt.1 h) with hlt | heq
  · exact hlt
  · exact absurd heq.symm hne

/-- The value that a list of entries gives a key. -/
def find? (k : κ) : List (κ × β) → Option β
  | [] => none
  | (k', v) :: rest => if text k = text k' then some v else find? k rest

/-- The value of a key. -/
def get? (d : SortedMap κ β) (k : κ) : Option β := find? k d.entries

/-- Whether a key has a value. -/
def contains (d : SortedMap κ β) (k : κ) : Bool := (d.get? k).isSome

/-- Set the value of a key in ascending entries. -/
def insertEntry (k : κ) (v : β) : List (κ × β) → List (κ × β)
  | [] => [(k, v)]
  | (k', v') :: rest =>
    if text k < text k' then (k, v) :: (k', v') :: rest
    else if text k = text k' then (k, v) :: rest
    else (k', v') :: insertEntry k v rest

theorem mem_insertEntry {k : κ} {v : β} {l : List (κ × β)} {e : κ × β}
    (h : e ∈ insertEntry k v l) : e = (k, v) ∨ e ∈ l := by
  induction l with
  | nil => simpa [insertEntry] using h
  | cons e' rest ih =>
    simp only [insertEntry] at h
    split at h
    · exact List.mem_cons.1 h
    · split at h
      · rcases List.mem_cons.1 h with h | h
        · exact Or.inl h
        · exact Or.inr (List.mem_cons_of_mem _ h)
      · rcases List.mem_cons.1 h with h | h
        · exact Or.inr (h ▸ List.mem_cons_self)
        · exact (ih h).imp id (List.mem_cons_of_mem _)

theorem ascending_insertEntry {k : κ} {v : β} {l : List (κ × β)}
    (h : l.Pairwise fun a b => text a.1 < text b.1) :
    (insertEntry k v l).Pairwise fun a b => text a.1 < text b.1 := by
  induction l with
  | nil => simp [insertEntry]
  | cons e rest ih =>
    obtain ⟨first, more⟩ := List.pairwise_cons.1 h
    simp only [insertEntry]
    split
    · rename_i hlt
      refine List.pairwise_cons.2 ⟨fun e' he' => ?_, h⟩
      rcases List.mem_cons.1 he' with rfl | he'
      · exact hlt
      · exact text_lt_trans hlt (first e' he')
    · rename_i hnlt
      split
      · rename_i heq
        exact List.pairwise_cons.2 ⟨fun e' he' => heq ▸ first e' he', more⟩
      · rename_i hne
        refine List.pairwise_cons.2 ⟨fun e' he' => ?_, ih more⟩
        rcases mem_insertEntry he' with rfl | he'
        · exact lt_of_not_lt_of_ne hnlt hne
        · exact first e' he'

/-- The map without entries. -/
def empty : SortedMap κ β := ⟨[], List.Pairwise.nil⟩

instance : Inhabited (SortedMap κ β) := ⟨empty⟩

/-- The map with the value of one key set. -/
def insert (d : SortedMap κ β) (k : κ) (v : β) : SortedMap κ β :=
  ⟨insertEntry k v d.entries, ascending_insertEntry d.ascending⟩

/-- The map without one key. -/
def erase (d : SortedMap κ β) (k : κ) : SortedMap κ β :=
  ⟨d.entries.filter fun e => text e.1 ≠ text k, d.ascending.filter _⟩

/-- The map with the given entries set one after the other. -/
def insertAll (d : SortedMap κ β) (l : List (κ × β)) : SortedMap κ β :=
  l.foldl (fun d e => d.insert e.1 e.2) d

/-- The map with all entries of another one set. -/
def update (d other : SortedMap κ β) : SortedMap κ β := d.insertAll other.entries

/-- The map of a list of entries, of which the last one for a key counts. -/
def ofList (l : List (κ × β)) : SortedMap κ β := empty.insertAll l

/-- The keys in ascending order. -/
def keys (d : SortedMap κ β) : List κ := d.entries.map Prod.fst

/-- Whether there are no entries. -/
def isEmpty (d : SortedMap κ β) : Bool := d.entries.isEmpty

/-- The entries whose values `f` accepts, with the values it makes of them. -/
def filterMap (f : β → Option γ) (d : SortedMap κ β) : SortedMap κ γ :=
  ⟨d.entries.filterMap fun e => (f e.2).map fun v => (e.1, v), by
    refine List.pairwise_filterMap.2 (d.ascending.imp ?_)
    intro a b hab x hx y hy
    obtain ⟨v, _, rfl⟩ := Option.map_eq_some_iff.1 hx
    obtain ⟨w, _, rfl⟩ := Option.map_eq_some_iff.1 hy
    exact hab⟩

@[simp] theorem get?_empty (k : κ) : (empty : SortedMap κ β).get? k = none := rfl

theorem find?_insertEntry (k k' : κ) (v : β) (l : List (κ × β)) :
    find? k' (insertEntry k v l) = if text k' = text k then some v else find? k' l := by
  induction l with
  | nil => simp [insertEntry, find?]
  | cons e rest ih =>
    simp only [insertEntry]
    split
    · simp [find?]
    · split
      · rename_i heq
        by_cases h : text k' = text k
        · simp [find?, h]
        · have h' : ¬ text k' = text e.1 := heq ▸ h
          simp [find?, h, h']
      · rename_i hne
        simp only [find?, ih]
        by_cases h : text k' = text k
        · simp [h, hne]
        · simp [h]

/-- An insertion sets the value of its key and of no other. -/
theorem get?_insert (d : SortedMap κ β) (k k' : κ) (v : β) :
    (d.insert k v).get? k' = if text k' = text k then some v else d.get? k' :=
  find?_insertEntry k k' v d.entries

@[simp] theorem get?_insert_self (d : SortedMap κ β) (k : κ) (v : β) :
    (d.insert k v).get? k = some v := by
  simp [get?_insert]

theorem find?_filter_ne (k k' : κ) (l : List (κ × β)) :
    find? k' (l.filter fun e => text e.1 ≠ text k) =
      if text k' = text k then none else find? k' l := by
  induction l with
  | nil => simp [find?]
  | cons e rest ih =>
    by_cases h : text e.1 = text k
    · rw [List.filter_cons_of_neg (by simpa using h), ih]
      by_cases hk : text k' = text k
      · simp [hk]
      · simp [hk, find?, h]
    · rw [List.filter_cons_of_pos (by simpa using h)]
      obtain ⟨k₁, v₁⟩ := e
      simp only [find?, ih]
      by_cases hk : text k' = text k
      · simp [hk, Ne.symm h]
      · simp [hk]

/-- An erasure takes away its key and no other. -/
theorem get?_erase (d : SortedMap κ β) (k k' : κ) :
    (d.erase k).get? k' = if text k' = text k then none else d.get? k' :=
  find?_filter_ne k k' d.entries

theorem find?_eq_some_of_mem {k : κ} {v : β} {l : List (κ × β)}
    (h : l.Pairwise fun a b => text a.1 < text b.1) (hmem : (k, v) ∈ l) :
    find? k l = some v := by
  induction l with
  | nil => simp at hmem
  | cons e rest ih =>
    obtain ⟨first, more⟩ := List.pairwise_cons.1 h
    rcases List.mem_cons.1 hmem with rfl | hmem
    · simp [find?]
    · have hne : ¬ text k = text e.1 := by
        intro heq
        have := first _ hmem
        rw [heq] at this
        exact text_lt_irrefl _ this
      rw [find?, if_neg hne]
      exact ih more hmem

theorem mem_of_find?_eq_some {k : κ} {v : β} {l : List (κ × β)} (h : find? k l = some v) :
    (k, v) ∈ l := by
  induction l with
  | nil => simp [find?] at h
  | cons e rest ih =>
    obtain ⟨k', v'⟩ := e
    simp only [find?] at h
    split at h
    · rename_i heq
      rw [Option.some.injEq] at h
      rw [h, TextKey.text_injective _ _ heq]
      exact List.mem_cons_self
    · exact List.mem_cons_of_mem _ (ih h)

/-- The entries of a map are its keys with their values. -/
theorem mem_entries_iff {d : SortedMap κ β} {k : κ} {v : β} :
    (k, v) ∈ d.entries ↔ d.get? k = some v :=
  ⟨find?_eq_some_of_mem d.ascending, mem_of_find?_eq_some⟩

end SortedMap

end Scaffold
