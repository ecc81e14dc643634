import Scaffold.Proofs.Placeholder.Spelling
import Scaffold.Proofs.Template.Defaults

/-!
# What the tokens of a template spell

An extraction reads names and lines one by one and tells names apart in each of them, then in
each entry and then in the template. What it finds is what all tokens together spell: each name
once, where it occurs first, with the first default that a token gives for it.
-/

namespace Scaffold

open Placeholder

variable {a : Argument} {l : List Argument} {e : Entry} {entries : List Entry} {c : Contract}

/-- A token can spell what is collected from arguments that tokens can spell. -/
theorem Placeholder.isSpellable_collect (spellable : ∀ a ∈ l, IsSpellable a) :
    ∀ a ∈ Argument.collect l, IsSpellable a := by
  intro a mem
  rw [Argument.collect_eq_map] at mem
  obtain ⟨n, named, rfl⟩ := List.mem_map.1 mem
  obtain ⟨b, there, rfl⟩ := List.mem_map.1 (List.mem_eraseDups.1 named)
  refine ⟨(spellable b there).nonempty, (spellable b there).name, ?_⟩
  intro d first
  exact (spellable _ (Argument.exists_of_firstDefault? first)).default d rfl

namespace Entry

/-- What the tokens of an entry spell: those of its name, then those of its whole content. -/
def spelled (e : Entry) : List Argument :=
  arguments e.name ++ e.content.elim [] arguments

/-- The content has the tokens of its lines. -/
theorem spelled_eq_flatMap_texts (e : Entry) : e.spelled = e.texts.flatMap arguments := by
  rw [spelled, texts, List.flatMap_cons]
  cases e.content with
  | none => rfl
  | some content => exact congrArg (_ ++ ·) (arguments_eq_flatMap_lines content)

theorem isSpellable_of_mem_spelled (mem : a ∈ e.spelled) : IsSpellable a := by
  rw [spelled_eq_flatMap_texts] at mem
  obtain ⟨s, _, inside⟩ := List.mem_flatMap.1 mem
  exact isSpellable_of_mem_arguments inside

/-- An entry has the names that its tokens spell. -/
theorem withArgumentNames_eq (e : Entry) : e.withArgumentNames
    = { e with argumentNames := (e.spelled.map Argument.name).eraseDups } := by
  have names : e.occurrences.map (fun o => o.argument.name)
      = e.texts.flatMap fun s => ((arguments s).map Argument.name).eraseDups := by
    calc e.occurrences.map (fun o => o.argument.name)
        = (e.occurrences.map Occurrence.argument).map Argument.name := by rw [List.map_map]; rfl
      _ = (e.texts.flatMap declared).map Argument.name := by rw [arguments_occurrences]
      _ = e.texts.flatMap fun s => ((arguments s).map Argument.name).eraseDups := by
        simp only [List.map_flatMap, declared, Argument.names_collect]
  rw [withArgumentNames, Argument.distinctNames_eq_eraseDups, names,
    Argument.eraseDups_flatMap_eraseDups, spelled_eq_flatMap_texts, List.map_flatMap]

end Entry

/-- What the tokens of a list of entries spell, entry by entry. -/
def spelledIn (entries : List Entry) : List Argument := entries.flatMap Entry.spelled

theorem spelledIn_eq_flatMap_texts (entries : List Entry) :
    spelledIn entries = (entries.flatMap Entry.texts).flatMap arguments := by
  rw [spelledIn, List.flatMap_assoc]
  exact congrArg (entries.flatMap ·) (funext Entry.spelled_eq_flatMap_texts)

/-- What is declared and what is spelled are collected to the same. -/
theorem collect_declaredIn (entries : List Entry) :
    Argument.collect (declaredIn entries) = Argument.collect (spelledIn entries) := by
  rw [declaredIn, ← List.flatMap_assoc, spelledIn_eq_flatMap_texts]
  exact Argument.collect_flatMap_collect arguments _

theorem Template.ofEntries_ok {t : Template} (h : ofEntries entries = .ok t) :
    Contract.extract entries = .ok t.arguments
      ∧ t.entries = entries.map Entry.withArgumentNames := by
  unfold ofEntries at h
  split at h
  · simp at h
  · rename_i arguments extracted
    obtain rfl := Except.ok.inj h
    exact ⟨extracted, rfl⟩

namespace Contract

theorem eq_collect_of_extract (h : extract entries = .ok c) :
    c = Argument.collect (spelledIn entries) := by
  obtain ⟨_, collected⟩ := extract_ok_iff.1 h
  rw [← collected, collect_declaredIn]

/-- The arguments of a contract can be spelled by tokens. -/
theorem isSpellable_of_extract (h : extract entries = .ok c) : ∀ a ∈ c, IsSpellable a := by
  rw [eq_collect_of_extract h]
  apply isSpellable_collect
  intro a mem
  obtain ⟨e, _, inside⟩ := List.mem_flatMap.1 mem
  exact Entry.isSpellable_of_mem_spelled inside

/-- A contract that is extracted from entries has the names that their tokens spell, each once,
in the order of first occurrence and with the first default that a token gives for it. Every
entry of the template gets the names of its own tokens in this order, and the contract has the
names of the entries one after the other, each once. -/
theorem extract_of_spelled (h : extract entries = .ok c) :
    c = ((spelledIn entries).map Argument.name).eraseDups.map
        (fun n => ⟨n, Argument.firstDefault? n (spelledIn entries)⟩)
      ∧ (∃ t, Template.ofEntries entries = .ok t ∧ t.arguments = c
        ∧ t.entries = entries.map (fun e =>
          { e with argumentNames := (e.spelled.map Argument.name).eraseDups })
        ∧ c.names = (t.entries.flatMap Entry.argumentNames).eraseDups)
      ∧ ∀ a ∈ c, IsSpellable a := by
  have collected := eq_collect_of_extract h
  have made : Template.ofEntries entries = .ok ⟨entries.map Entry.withArgumentNames, c⟩ := by
    rw [Template.ofEntries, h]
  refine ⟨?_, ⟨_, made, rfl, ?_, ?_⟩, isSpellable_of_extract h⟩
  · exact collected.trans (Argument.collect_eq_map _)
  · exact List.map_congr_left fun e _ => e.withArgumentNames_eq
  · rw [collected, names, Argument.names_collect, spelledIn, List.map_flatMap, List.flatMap_map]
    simp only [Entry.withArgumentNames_eq]
    exact (Argument.eraseDups_flatMap_eraseDups _ entries).symm

/-- A directory and a file below it. The content of the file gives a default for the name of the
directory, and spells it twice. -/
def settingsFile : List Entry :=
  [⟨"#\x7bmodel\x7d".toList, .directory, ".".toList, 0o755, none, []⟩,
    ⟨"#\x7bos:linux\x7d.txt".toList, .file, "#\x7bmodel\x7d".toList, 0o644,
      some "#\x7brun\x7d #\x7bmodel\x7d\n#\x7bmodel:small\x7d #\x7bos\x7d".toList, []⟩]

/-- The default of the second line is that of the name in the first entry. -/
theorem extract_of_spelled_settingsFile :
    ∃ c t, extract settingsFile = .ok c ∧ Template.ofEntries settingsFile = .ok t
      ∧ c = [⟨"model".toList, some "small".toList⟩, ⟨"os".toList, some "linux".toList⟩,
        ⟨"run".toList, none⟩]
      ∧ t.entries.map Entry.argumentNames
        = [["model".toList], ["os".toList, "run".toList, "model".toList]] := by
  have extracted : extract settingsFile
      = .ok [⟨"model".toList, some "small".toList⟩, ⟨"os".toList, some "linux".toList⟩,
        ⟨"run".toList, none⟩] := by
    decide +kernel
  obtain ⟨_, ⟨t, made, _, entries, _⟩, _⟩ := extract_of_spelled extracted
  refine ⟨_, t, extracted, made, rfl, ?_⟩
  rw [entries]
  decide +kernel

end Contract

end Scaffold
