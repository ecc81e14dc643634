import Scaffold.Proofs.Instant
import Scaffold.Proofs.Template.Stored
import Scaffold.Registry.Record

/-!
# The stored index is read back

An index whose records have proper times is read back from its stored text as it was.
The stored text of a template is no index, so an index file with a template in it is
noticed.
-/

namespace Scaffold

open Json

namespace SortedMap

variable {κ β : Type} [TextKey κ]

/-- A key behind all others is set at the end. -/
theorem insertEntry_eq_append {k : κ} {v : β} {l : List (κ × β)}
    (h : ∀ e ∈ l, TextKey.text e.1 < TextKey.text k) : insertEntry k v l = l ++ [(k, v)] := by
  induction l with
  | nil => rfl
  | cons e rest ih =>
    have first := h e List.mem_cons_self
    have behind : ¬ TextKey.text k < TextKey.text e.1 := fun lt =>
      text_lt_irrefl _ (text_lt_trans first lt)
    have other : ¬ TextKey.text k = TextKey.text e.1 := fun eq => text_lt_irrefl e.1 (eq ▸ first)
    rw [insertEntry, if_neg behind, if_neg other, ih fun e' he => h e' (List.mem_cons_of_mem _ he)]
    rfl

private theorem find?_eq_none_of_lt {k : κ} {l : List (κ × β)}
    (h : ∀ e ∈ l, TextKey.text k < TextKey.text e.1) : find? k l = none := by
  induction l with
  | nil => rfl
  | cons e rest ih =>
    have other : ¬ TextKey.text k = TextKey.text e.1 := by
      intro same
      have before := h e List.mem_cons_self
      rw [same] at before
      exact text_lt_irrefl _ before
    rw [find?, if_neg other, ih fun e' mem => h e' (List.mem_cons_of_mem _ mem)]

/-- A key is set in its place between the smaller and the larger ones. -/
theorem insertEntry_split (k : κ) (v : β) {l : List (κ × β)}
    (ascending : l.Pairwise fun a b => TextKey.text a.1 < TextKey.text b.1) :
    ∃ front back, l = front ++ (find? k l).toList.map (fun old => (k, old)) ++ back
      ∧ insertEntry k v l = front ++ (k, v) :: back
      ∧ (∀ e ∈ front, TextKey.text e.1 < TextKey.text k)
      ∧ ∀ e ∈ back, TextKey.text k < TextKey.text e.1 := by
  induction l with
  | nil => exact ⟨[], [], rfl, rfl, by simp, by simp⟩
  | cons e rest ih =>
    obtain ⟨k', v'⟩ := e
    obtain ⟨first, more⟩ := List.pairwise_cons.1 ascending
    by_cases before : TextKey.text k < TextKey.text k'
    · have behind : ∀ e ∈ (k', v') :: rest, TextKey.text k < TextKey.text e.1 := by
        intro e mem
        rcases List.mem_cons.1 mem with rfl | mem
        · exact before
        · exact text_lt_trans before (first e mem)
      refine ⟨[], (k', v') :: rest, ?_, ?_, by simp, behind⟩
      · simp [find?_eq_none_of_lt behind]
      · rw [insertEntry, if_pos before]
        rfl
    · by_cases same : TextKey.text k = TextKey.text k'
      · obtain rfl := TextKey.text_injective _ _ same
        exact ⟨[], rest, by simp [find?], by simp [insertEntry], by simp, first⟩
      · obtain ⟨front, back, parts, set, smaller, larger⟩ := ih more
        refine ⟨(k', v') :: front, back, ?_, ?_, ?_, larger⟩
        · rw [find?, if_neg same, List.cons_append, List.cons_append, ← parts]
        · rw [insertEntry, if_neg before, if_neg same, set, List.cons_append]
        · intro e mem
          rcases List.mem_cons.1 mem with rfl | mem
          · exact lt_of_not_lt_of_ne before same
          · exact smaller e mem

theorem get?_insert_of_ne (d : SortedMap κ β) (v : β) {k k' : κ} (differ : k' ≠ k) :
    (d.insert k v).get? k' = d.get? k' := by
  rw [get?_insert, if_neg fun same => differ (TextKey.text_injective _ _ same)]

theorem get?_erase_of_ne (d : SortedMap κ β) {k k' : κ} (differ : k' ≠ k) :
    (d.erase k).get? k' = d.get? k' := by
  rw [get?_erase, if_neg fun same => differ (TextKey.text_injective _ _ same)]

@[simp] theorem get?_erase_self (d : SortedMap κ β) (k : κ) : (d.erase k).get? k = none := by
  rw [get?_erase, if_pos rfl]

theorem eq_of_entries_eq {d d' : SortedMap κ β} (h : d.entries = d'.entries) : d = d' := by
  cases d
  cases d'
  cases h
  rfl

end SortedMap

namespace Record

/-- The time of the record, if it is known, can be stored. -/
def IsTimed (r : Record) : Prop := ∀ i, r.createdAt = some i → i.IsProper

private theorem readsInstant {i : Instant} (h : i.IsProper) :
    Reads readInstant (.text i.render) i :=
  (Reads.text i.render).convert (by simp [Instant.parse?_render h])

/-- A record is read back as it was, whichever of its parts are left out. -/
theorem reads {r : Record} (h : r.IsTimed) : Reads Record.read r.layout r := by
  obtain ⟨projectDir, location, configFile, ignore, createdAt⟩ := r
  have project := (Reads.text projectDir).map
    fun x => (⟨some x, none, none, none, none⟩ : Record.Draft)
  have place := (Reads.text location).map
    fun x => (⟨some projectDir, some x, none, none, none⟩ : Record.Draft)
  have config := (Reads.text configFile).map
    fun x => (⟨some projectDir, some location, some x, none, none⟩ : Record.Draft)
  have patterns := (Reads.texts ignore).map
    fun x => (⟨some projectDir, some location, some configFile, some x, none⟩ : Record.Draft)
  have time (ignored : Option (List Text)) {i : Instant} (hi : createdAt = some i) :=
    ((readsInstant (h i hi)).optional_text).map
      fun x => (⟨some projectDir, some location, some configFile, ignored, some x⟩ : Record.Draft)
  cases createdAt with
  | none =>
    by_cases plain : ignore = []
    · subst plain
      exact .record (.cons rfl project (.cons rfl place (.cons rfl config (.nil _)))) rfl
    · simp only [Record.layout, plain, if_false]
      exact .record (.cons rfl project (.cons rfl place (.cons rfl config
        (.cons rfl patterns (.nil _))))) rfl
  | some i =>
    by_cases plain : ignore = []
    · subst plain
      exact .record (.cons rfl project (.cons rfl place (.cons rfl config
        (.cons rfl (time none rfl) (.nil _))))) rfl
    · simp only [Record.layout, plain, if_false]
      exact .record (.cons rfl project (.cons rfl place (.cons rfl config
        (.cons rfl patterns (.cons rfl (time (some ignore) rfl) (.nil _)))))) rfl

end Record

namespace Index

/-- The times of all records can be stored. -/
def IsTimed (index : Index) : Prop := ∀ e ∈ index.entries, e.2.IsTimed

theorem IsTimed.insert {index : Index} {record : Record} (h : index.IsTimed)
    (timed : record.IsTimed) (name : TemplateName) : IsTimed (index.insert name record) := by
  intro e mem
  rcases SortedMap.mem_insertEntry mem with rfl | mem
  · exact timed
  · exact h e mem

theorem IsTimed.erase {index : Index} (h : index.IsTimed) (name : TemplateName) :
    IsTimed (index.erase name) := by
  intro e mem
  exact h e (List.mem_filter.1 mem).1

/-- The members behind a front of an index are set one after the other behind it. -/
private theorem members_append (front : List (TemplateName × Record))
    {back : List (TemplateName × Record)}
    (ascending : (front ++ back).Pairwise fun a b => TextKey.text a.1 < TextKey.text b.1)
    (timed : ∀ e ∈ back, e.2.IsTimed) :
    Members onName ⟨front, ascending.sublist (List.sublist_append_left _ _)⟩
      (back.map fun e => (e.1.text, e.2.layout)) ⟨front ++ back, ascending⟩ := by
  induction back generalizing front with
  | nil => simpa using Members.nil _
  | cons e more ih =>
    have sorted : ((front ++ [e]) ++ more).Pairwise
        fun a b => TextKey.text a.1 < TextKey.text b.1 := by simpa using ascending
    have below : ∀ e' ∈ front, TextKey.text e'.1 < TextKey.text e.1 := fun e' he =>
      (List.pairwise_append.1 ascending).2.2 e' he e List.mem_cons_self
    have others := ih (front ++ [e]) sorted fun e' he => timed e' (List.mem_cons_of_mem _ he)
    have inserted : (⟨front ++ [e], sorted.sublist (List.sublist_append_left _ _)⟩ : Index)
        = SortedMap.insert ⟨front, ascending.sublist (List.sublist_append_left _ _)⟩ e.1 e.2 :=
      SortedMap.eq_of_entries_eq (SortedMap.insertEntry_eq_append below).symm
    have whole : (⟨(front ++ [e]) ++ more, sorted⟩ : Index) = ⟨front ++ e :: more, ascending⟩ :=
      SortedMap.eq_of_entries_eq (by simp)
    rw [inserted, whole] at others
    exact .cons (by simp [onName]) ((Record.reads (timed e List.mem_cons_self)).map _) others

theorem reads {index : Index} (h : index.IsTimed) :
    Reads (readObject onName SortedMap.empty) (layout index) index :=
  .object (members_append [] index.ascending h)

/-- An object is no blank text. -/
private theorem isAllBlank_object (members : List (Text × Layout)) :
    Text.isAllBlank (Layout.object members).render = false := by
  have begins : ∃ t, (Layout.object members).render = '{' :: t := by
    cases members with
    | nil => exact ⟨_, rfl⟩
    | cons m more => exact ⟨_, bracketed_cons '{' '}' _ _ 0⟩
  obtain ⟨t, begins⟩ := begins
  have brace : isBlank '{' = false := by decide
  simp [begins, Text.isAllBlank, brace]

/-- An index is read back from its stored text. -/
theorem parse_render {index : Index} (h : index.IsTimed) : parse index.render = .ok index := by
  have blank : Text.isAllBlank index.render = false := isAllBlank_object _
  have whole : readWhole? (readObject onName SortedMap.empty) index.render = .ok index :=
    (reads h).whole
  simp only [parse, blank, Bool.false_eq_true, if_false, whole]
  rfl

@[simp] theorem parse_nil : parse [] = .ok SortedMap.empty := rfl

/-- A record begins with a text, also when it is written as a list. -/
private theorem read_list_error (entries : List Entry) (depth : Nat) (rest : Text) :
    Record.read (' ' :: (Layout.list (entries.map Entry.layout) depth ++ rest))
      = .error .mismatch := by
  have draft : readDraft Record.fields ⟨none, none, none, none, none⟩
      (' ' :: (Layout.list (entries.map Entry.layout) depth ++ rest)) = .error .mismatch := by
    cases entries with
    | nil => rfl
    | cons e more =>
      have written := bracketed_cons '[' ']' e.layout (more.map Entry.layout) depth
      obtain ⟨t, begins⟩ : ∃ t, e.layout (depth + 1) = '{' :: t :=
        ⟨_, bracketed_cons '{' '}' _ _ (depth + 1)⟩
      have front : skipSpace (' ' :: (Layout.list ((e :: more).map Entry.layout) depth ++ rest))
          = '[' :: ('\n' :: Layout.indent (depth + 1) ++ (e.layout (depth + 1)
            ++ (behindMember ']' (more.map Entry.layout) depth ++ rest))) := by
        rw [List.map_cons, Layout.list, written]
        simp [skipSpace, isSpace]
      have turn := nextItem_first (depth + 1)
        (t := e.layout (depth + 1) ++ (behindMember ']' (more.map Entry.layout) depth ++ rest))
        (by rw [begins]; rfl) (by decide) (by decide)
      have refused : readText (e.layout (depth + 1)
          ++ (behindMember ']' (more.map Entry.layout) depth ++ rest)) = .error .mismatch := by
        rw [begins]
        rfl
      simp only [readDraft, front, Record.fields, readPositional, turn, RecordField.of,
        ValueReader.map, ValueReader.convert, refused]
  simp only [Record.read, readRecord, ValueReader.convert, draft]

/-- The stored text of a template is no index. -/
theorem parse_template (t : Template) : parse t.render = .error (.json .mismatch) := by
  let name : TemplateName := ⟨"dirs_and_files".toList, by decide⟩
  have blank : Text.isAllBlank t.render = false := isAllBlank_object _
  have known : onName SortedMap.empty name.text
      = .ok (Record.read.map (SortedMap.empty.insert name)) := by
    simp [onName]
  have refused : readObject onName SortedMap.empty t.render = .error .mismatch := by
    refine readObject_member_error (.nil _) known (fun depth rest => ?_) 0
    simp only [ValueReader.map, ValueReader.convert, read_list_error]
  simp only [parse, blank, Bool.false_eq_true, if_false, readWhole?, refused]
  rfl

end Index

end Scaffold
