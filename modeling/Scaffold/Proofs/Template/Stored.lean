import Scaffold.Proofs.Json.Written
import Scaffold.Template.Stored

/-!
# Stored templates are read back

A well-formed template is read back from its stored text as it was. Arguments and
entries are records, so each of their fields is read into a draft that the next fields
leave alone. What goes wrong while a template is read never is a refusal of the file
system.
-/

namespace Scaffold

open Json

theorem Argument.reads (a : Argument) : Reads Argument.read a.layout a := by
  have name := (Reads.text a.name).map fun x => (⟨some x, none⟩ : Argument.Draft)
  have given := (Reads.optional a.default?).map fun x => (⟨some a.name, some x⟩ : Argument.Draft)
  exact .record (.cons rfl name (.cons rfl given (.nil _))) rfl

namespace Entry

/-- The entry with its kind as a word. -/
def stored (e : Entry) : StoredEntry :=
  ⟨e.name, e.kind.tag, e.parent, e.bits, e.content, e.argumentNames⟩

theorem reads (e : Entry) : Reads StoredEntry.read e.layout e.stored := by
  have name := (Reads.text e.name).map
    fun x => (⟨some x, none, none, none, none, none⟩ : StoredEntry.Draft)
  have tag := (Reads.text e.kind.tag).map
    fun x => (⟨some e.name, some x, none, none, none, none⟩ : StoredEntry.Draft)
  have parent := (Reads.text e.parent).map
    fun x => (⟨some e.name, some e.kind.tag, some x, none, none, none⟩ : StoredEntry.Draft)
  have bits := (Reads.uint32 e.bits).map
    fun x => (⟨some e.name, some e.kind.tag, some e.parent, some x, none, none⟩ :
      StoredEntry.Draft)
  have content := (Reads.optional e.content).map
    fun x => (⟨some e.name, some e.kind.tag, some e.parent, some e.bits, some x, none⟩ :
      StoredEntry.Draft)
  have names := (Reads.texts e.argumentNames).map
    fun x => (⟨some e.name, some e.kind.tag, some e.parent, some e.bits, some e.content, some x⟩ :
      StoredEntry.Draft)
  exact .record (.cons rfl name (.cons rfl tag (.cons rfl parent (.cons rfl bits
    (.cons rfl content (.cons rfl names (.nil _))))))) rfl

/-- A well-formed entry is meant by its stored form. -/
theorem toEntry_stored {e : Entry} (h : e.WellFormed) : e.stored.toEntry = .ok e := by
  obtain ⟨name, kind, parent, bits, content, names⟩ := e
  have tagged := EntryKind.ofTag_tag kind
  cases kind with
  | file =>
    obtain ⟨content, rfl⟩ := Option.isSome_iff_exists.1 h
    simp only [stored, StoredEntry.toEntry, tagged]
  | directory =>
    obtain rfl := Option.isSome_eq_false_iff.1 h |> Option.isNone_iff_eq_none.1
    simp only [stored, StoredEntry.toEntry, tagged]

end Entry

namespace Template

theorem reads (t : Template) :
    Reads readParts t.layout (t.entries.map Entry.stored, t.arguments) := by
  have entries : Reads (readList StoredEntry.read) (.list (t.entries.map Entry.layout))
      (t.entries.map Entry.stored) := .list fun e _ => e.reads
  have entries := entries.map fun x => (⟨some x, none⟩ : Template.Draft)
  have arguments : Reads (readList Argument.read) (.list (t.arguments.map Argument.layout))
      (t.arguments.map id) := .list fun a _ => a.reads
  have arguments := arguments.map
    fun x => (⟨some (t.entries.map Entry.stored), some x⟩ : Template.Draft)
  exact .record (.cons rfl entries (.cons rfl arguments (.nil _))) (by simp)

private theorem entriesOf_stored {entries : List Entry} (h : ∀ e ∈ entries, e.WellFormed) :
    entriesOf (entries.map Entry.stored) = .ok entries := by
  induction entries with
  | nil => rfl
  | cons e more ih =>
    have first := Entry.toEntry_stored (h e List.mem_cons_self)
    have others := ih fun e he => h e (List.mem_cons_of_mem _ he)
    simp only [List.map_cons, entriesOf, first, others]

/-- A well-formed template is read back from its stored text. -/
theorem parse_render {t : Template} (h : t.WellFormed) : parse t.render = .ok t := by
  have whole := t.reads.whole
  simp only [parse, render, whole, entriesOf_stored h]

private theorem ofTag_ne_io {tag : Text} {e : Error} (h : EntryKind.ofTag tag = .error e)
    (why : IoError) : e ≠ .io why := by
  unfold EntryKind.ofTag at h
  split at h
  · simp at h
  split at h
  · simp at h
  · obtain rfl := Except.error.inj h
    simp

private theorem toEntry_ne_io {s : StoredEntry} {e : Error} (h : s.toEntry = .error e)
    (why : IoError) : e ≠ .io why := by
  unfold StoredEntry.toEntry at h
  split at h
  · rename_i tagged
    obtain rfl := Except.error.inj h
    exact ofTag_ne_io tagged why
  · simp at h
  · split at h
    · obtain rfl := Except.error.inj h
      simp
    · simp at h

private theorem entriesOf_ne_io {stored : List StoredEntry} {e : Error}
    (h : entriesOf stored = .error e) (why : IoError) : e ≠ .io why := by
  induction stored with
  | nil => simp [entriesOf] at h
  | cons s more ih =>
    rw [entriesOf] at h
    split at h
    · rename_i first
      obtain rfl := Except.error.inj h
      exact toEntry_ne_io first why
    · split at h
      · rename_i others
        obtain rfl := Except.error.inj h
        exact ih others
      · simp at h

/-- No stored text makes reading it a refusal of the file system. -/
theorem parse_ne_io (written : Text) (why : IoError) : parse written ≠ .error (.io why) := by
  intro h
  rw [parse] at h
  split at h
  · simp at h
  · split at h
    · rename_i stored
      exact entriesOf_ne_io stored why (Except.error.inj h)
    · simp at h

/-! ## What is read is well-formed -/

private theorem wellFormed_of_toEntry {s : StoredEntry} {e : Entry} (h : s.toEntry = .ok e) :
    e.WellFormed := by
  unfold StoredEntry.toEntry at h
  split at h
  · simp at h
  · obtain rfl := Except.ok.inj h
    rfl
  · split at h
    · simp at h
    · obtain rfl := Except.ok.inj h
      rfl

private theorem wellFormed_of_entriesOf {stored : List StoredEntry} {entries : List Entry}
    (h : entriesOf stored = .ok entries) : ∀ e ∈ entries, e.WellFormed := by
  induction stored generalizing entries with
  | nil =>
    obtain rfl := Except.ok.inj h
    simp
  | cons s more ih =>
    rw [entriesOf] at h
    split at h
    · simp at h
    · rename_i first converted
      split at h
      · simp at h
      · rename_i rest others
        obtain rfl := Except.ok.inj h
        intro e mem
        rcases List.mem_cons.1 mem with rfl | mem
        · exact wellFormed_of_toEntry converted
        · exact ih others e mem

/-- Whatever text a template is read from, content stands exactly on its files. -/
theorem wellFormed_of_parse {written : Text} {t : Template} (h : parse written = .ok t) :
    t.WellFormed := by
  rw [parse] at h
  split at h
  · simp at h
  · split at h
    · simp at h
    · rename_i entries converted
      obtain rfl := Except.ok.inj h
      exact wellFormed_of_entriesOf converted

/-- The stored form loses nothing. Every template that is read from any text is well-formed,
and exactly the well-formed ones are read back as they were from what is stored of them. -/
theorem stored_form_faithful :
    (∀ written t, parse written = .ok t → t.WellFormed)
      ∧ ∀ t : Template, parse t.render = .ok t ↔ t.WellFormed := by
  refine ⟨fun written t => wellFormed_of_parse, fun t => ?_⟩
  constructor
  · exact wellFormed_of_parse
  · exact parse_render

/-- A text as another program may have written it: its fields stand in another order, one of
them is unknown, and a directory has content. -/
def foreignText : Text :=
  "[[\x7b\"mode\":4294967295,\"size\":1e3,\"content\":\"lost\",\"root\":\".\",\"type\":\"dir\",\"name\":\"\\u00e9\"\x7d]]".toList

/-- The template that is read from it. -/
def foreignTemplate : Template :=
  ⟨[⟨"é".toList, .directory, ".".toList, 0xFFFFFFFF, none, []⟩], []⟩

/-- A template whose texts hold what has to be escaped and what must not be. -/
def awkwardTemplate : Template where
  entries :=
    [⟨"a\"b\\c\x7f.txt".toList, .file, "x//\x00é".toList, 0xFFFFFFFF,
        some "\r\n\t\x08\x0c\x1f\"\\/#\x7bx\x7d \u2028😀".toList, ["x".toList, "x".toList]⟩,
      ⟨[], .directory, [], 0, none, []⟩]
  arguments := [⟨"x".toList, none⟩, ⟨"x".toList, some []⟩]

theorem stored_form_faithful_awkward :
    parse foreignText = .ok foreignTemplate ∧ foreignTemplate.WellFormed
      ∧ awkwardTemplate.WellFormed ∧ parse awkwardTemplate.render = .ok awkwardTemplate := by
  have found : (parse foreignText).toOption = some foreignTemplate := by decide +kernel
  have read : parse foreignText = .ok foreignTemplate := by
    cases result : parse foreignText with
    | ok t => simpa [result, Except.toOption] using found
    | error e => simp [result, Except.toOption] at found
  have wf : awkwardTemplate.WellFormed := by decide
  exact ⟨read, stored_form_faithful.1 _ _ read, wf, (stored_form_faithful.2 _).2 wf⟩

end Template

end Scaffold
