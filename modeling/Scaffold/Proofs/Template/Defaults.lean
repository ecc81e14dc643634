import Scaffold.Proofs.Placeholder.Rendering
import Scaffold.Template.Basic

/-!
# Defaults

A name of an entry and every line of a content are read for themselves, and each of them
declares a name with the first default that it gives for it. Two of them may not contradict
one another, so a name has one default in the contract, which is the one that every string
that gives any gives first. A token without a value is rendered as that default.
-/

namespace Scaffold

variable {a b : Argument} {n d s : Text} {e : Entry} {entries : List Entry} {c : Contract}

/-- The strings of an entry that are read for tokens: its name and the lines of its content. -/
def Entry.texts (e : Entry) : List Text :=
  e.name :: (e.content.elim [] (Text.split '\n'))

/-- What a list of entries declares, string by string. -/
def declaredIn (entries : List Entry) : List Argument :=
  entries.flatMap fun e => e.texts.flatMap Placeholder.declared

/-- No name is given two defaults. -/
def Argument.Consistent (l : List Argument) : Prop :=
  ∀ n d d', ⟨n, some d⟩ ∈ l → ⟨n, some d'⟩ ∈ l → d = d'

open Argument

namespace Argument.Consistent

variable {l : List Argument}

/-- Among consistent arguments every default is the first one. -/
theorem firstDefault?_eq (h : Consistent l) (mem : ⟨n, some d⟩ ∈ l) :
    firstDefault? n l = some d := by
  obtain ⟨d', first⟩ := Option.isSome_iff_exists.1 (isSome_firstDefault? mem rfl)
  rw [show firstDefault? n l = some d' from first, h n d d' mem (exists_of_firstDefault? first)]

theorem cons_none_iff : Consistent (⟨n, none⟩ :: l) ↔ Consistent l := by
  simp [Consistent]

theorem cons_some_iff :
    Consistent (⟨n, some d⟩ :: l) ↔ (∀ d', ⟨n, some d'⟩ ∈ l → d = d') ∧ Consistent l := by
  constructor
  · intro h
    exact ⟨fun d' mem => h n d d' List.mem_cons_self (List.mem_cons_of_mem _ mem),
      fun n d d' mem mem' => h n d d' (List.mem_cons_of_mem _ mem) (List.mem_cons_of_mem _ mem')⟩
  · rintro ⟨here, more⟩ n' d₁ d₂ mem mem'
    simp only [List.mem_cons, Argument.mk.injEq, Option.some.injEq] at mem mem'
    rcases mem with ⟨rfl, rfl⟩ | mem <;> rcases mem' with ⟨same, rfl⟩ | mem'
    · rfl
    · exact here d₂ mem'
    · exact (here d₁ (same ▸ mem)).symm
    · exact more n' d₁ d₂ mem mem'

end Argument.Consistent

namespace Entry

theorem arguments_occurrences (e : Entry) :
    e.occurrences.map Occurrence.argument = e.texts.flatMap Placeholder.declared := by
  cases content : e.content <;>
    simp [occurrences, nameArguments, contentArguments, texts, content, Function.comp_def]

end Entry

theorem arguments_occurrencesIn (entries : List Entry) :
    (entries.flatMap Entry.occurrences).map Occurrence.argument = declaredIn entries := by
  rw [List.map_flatMap, declaredIn]
  exact congrArg (List.flatMap · entries) (funext Entry.arguments_occurrences)

namespace Contract

variable {l : List Argument} {occurrences : List Occurrence} {known : Defaults} {source : Source}

/-- The arguments repeat the defaults that are known and give no others for their names. -/
def Defaults.Admits (known : Defaults) (l : List Argument) : Prop :=
  ∀ n d source, known.get? n = some (d, source) → ∀ d', ⟨n, some d'⟩ ∈ l → d = d'

namespace Defaults.Admits

theorem cons_none_iff : known.Admits (⟨n, none⟩ :: l) ↔ known.Admits l := by
  simp [Defaults.Admits]

theorem cons_some_iff : known.Admits (⟨n, some d⟩ :: l)
    ↔ (∀ d' source, known.get? n = some (d', source) → d' = d) ∧ known.Admits l := by
  constructor
  · intro h
    exact ⟨fun d' source found => h n d' source found d List.mem_cons_self,
      fun n d source found d' mem => h n d source found d' (List.mem_cons_of_mem _ mem)⟩
  · rintro ⟨here, more⟩ n' d₁ source found d₂ mem
    simp only [List.mem_cons, Argument.mk.injEq, Option.some.injEq] at mem
    rcases mem with ⟨rfl, rfl⟩ | mem
    · exact here d₁ source found
    · exact more n' d₁ source found d₂ mem

/-- A default that becomes known has to be repeated too. -/
theorem insert_iff (new : known.get? n = none) : Defaults.Admits (known.insert n (d, source)) l
    ↔ (∀ d', ⟨n, some d'⟩ ∈ l → d = d') ∧ known.Admits l := by
  constructor
  · intro h
    refine ⟨h n d source (SortedMap.get?_insert_self ..), fun n' d' source' found => ?_⟩
    have differ : n' ≠ n := by
      rintro rfl
      simp [new] at found
    refine h n' d' source' ?_
    rw [SortedMap.get?_insert, if_neg (by simpa [TextKey.text] using differ), found]
  · rintro ⟨here, more⟩ n' d' source' found
    rw [SortedMap.get?_insert] at found
    split at found
    · rename_i same
      obtain rfl : n' = n := same
      exact (Prod.mk.inj (Option.some.inj found)).1 ▸ here
    · exact more n' d' source' found

end Defaults.Admits

/-- The check passes if no occurrence contradicts a default that is known, and no two
occurrences contradict each other. -/
theorem checkDefaults_ok_iff : checkDefaults known occurrences = .ok ()
    ↔ known.Admits (occurrences.map Occurrence.argument)
      ∧ Consistent (occurrences.map Occurrence.argument) := by
  induction occurrences generalizing known with
  | nil => simp [checkDefaults, Consistent, Defaults.Admits]
  | cons o more ih =>
    obtain ⟨⟨name, default?⟩, source⟩ := o
    rw [checkDefaults, List.map_cons]
    cases default? with
    | none => rw [ih, Defaults.Admits.cons_none_iff, Consistent.cons_none_iff]
    | some given =>
      rw [Defaults.Admits.cons_some_iff, Consistent.cons_some_iff]
      dsimp only
      cases found : known.get? name with
      | none =>
        rw [ih, Defaults.Admits.insert_iff found]
        simp only [reduceCtorEq, false_implies, implies_true, true_and]
        exact ⟨fun ⟨⟨here, admits⟩, consistent⟩ => ⟨admits, here, consistent⟩,
          fun ⟨admits, here, consistent⟩ => ⟨⟨here, admits⟩, consistent⟩⟩
      | some first =>
        obtain ⟨first, source'⟩ := first
        dsimp only
        by_cases same : first = given
        · subst same
          rw [if_pos rfl, ih]
          constructor
          · rintro ⟨admits, consistent⟩
            exact ⟨⟨fun d' _ eq => (Prod.mk.inj (Option.some.inj eq)).1.symm, admits⟩,
              admits name first source' found, consistent⟩
          · rintro ⟨⟨_, admits⟩, _, consistent⟩
            exact ⟨admits, consistent⟩
        · rw [if_neg same]
          constructor
          · simp
          · rintro ⟨⟨repeats, _⟩, _⟩
            exact absurd (repeats first source' rfl) same

/-- A contract is extracted if what is declared is consistent, and it is all of that. -/
theorem extract_ok_iff : extract entries = .ok c
    ↔ Consistent (declaredIn entries) ∧ collect (declaredIn entries) = c := by
  have checked : checkDefaults .empty (entries.flatMap Entry.occurrences) = .ok ()
      ↔ Consistent (declaredIn entries) := by
    rw [checkDefaults_ok_iff, arguments_occurrencesIn]
    exact and_iff_right (by simp [Defaults.Admits])
  rw [extract]
  cases passed : checkDefaults .empty (entries.flatMap Entry.occurrences) with
  | error e => simp [← checked, passed]
  | ok _ => simp [← checked, passed, arguments_occurrencesIn]

theorem exists_extract_error_iff :
    (∃ err, extract entries = .error err) ↔ ¬ Consistent (declaredIn entries) := by
  constructor
  · rintro ⟨err, failed⟩ consistent
    have extracted := extract_ok_iff.2 ⟨consistent, rfl⟩
    exact absurd (failed.symm.trans extracted) (by simp)
  · intro contradict
    cases extracted : extract entries with
    | error err => exact ⟨err, rfl⟩
    | ok c => exact absurd (extract_ok_iff.1 extracted).1 contradict

theorem nodup_names_of_extract (h : extract entries = .ok c) : c.names.Nodup := by
  obtain ⟨_, rfl⟩ := extract_ok_iff.1 h
  exact nodup_names_collect

end Contract

theorem mem_declaredIn (mem : e ∈ entries) (inside : s ∈ e.texts)
    (declared : a ∈ Placeholder.declared s) : a ∈ declaredIn entries :=
  List.mem_flatMap.2 ⟨e, mem, List.mem_flatMap.2 ⟨s, inside, declared⟩⟩

namespace Contract

open Placeholder Instantiation

variable {values resolved : Values} {before after : List Piece}

section

variable (h : extract entries = .ok c) (mem : e ∈ entries) (inside : s ∈ e.texts)

include h mem inside

/-- The contract has the name of every token. -/
theorem mem_names_of_extract (spelled : a ∈ arguments s) : a.name ∈ c.names := by
  obtain ⟨_, rfl⟩ := extract_ok_iff.1 h
  have declared : a.name ∈ (declared s).map name :=
    mem_names_collect.2 (List.mem_map_of_mem spelled)
  obtain ⟨b, there, same⟩ := List.mem_map.1 declared
  exact mem_names_collect.2 (same ▸ List.mem_map_of_mem (mem_declaredIn mem inside there))

/-- Once the contract is resolved, every token has a value. -/
theorem lacks_of_extract (done : c.resolve values = .ok resolved) (spelled : a ∈ arguments s) :
    (lookupValues values resolved).lacks a = false := by
  have known := mem_names_of_extract h mem inside spelled
  have value := isSome_get?_lookupValues done (nodup_names_of_extract h) known
  obtain ⟨v, value⟩ := Option.isSome_iff_exists.1 value
  exact Values.not_lacks_iff.2 ⟨v, by rw [value, Option.some_or]⟩

/-- The contract has the first default that a string gives for a name. -/
theorem get?_of_extract (first : firstDefault? n (arguments s) = some d) :
    c.get? n = some ⟨n, some d⟩ := by
  obtain ⟨consistent, rfl⟩ := extract_ok_iff.1 h
  rw [← firstDefault?_collect] at first
  have declared := mem_declaredIn mem inside (exists_of_firstDefault? first)
  rw [get?_collect, if_pos (List.mem_map_of_mem declared), consistent.firstDefault?_eq declared]

end

/-- A token that gives a default is rendered, without a value for its name, as the first
default of that name in the same string, which is the one of the contract. That is its own
default unless another one stands in front of it. -/
theorem default_of_extract (h : extract entries = .ok c) (mem : e ∈ entries)
    (inside : s ∈ e.texts) (cut : pieces s = before ++ .token a :: after)
    (given : a.default?.isSome) :
    ∃ d, firstDefault? a.name (arguments s) = some d
      ∧ ((∀ b, .token b ∈ before → b.name = a.name → b.default? = none ∨ b.default? = a.default?) →
        a.default? = some d)
      ∧ c.get? a.name = some ⟨a.name, some d⟩
      ∧ ∀ values resolved, values.get? a.name = none → c.resolve values = .ok resolved →
        ∃ front back, renderPieces (lookupValues values resolved) before = .ok front
          ∧ renderPieces (lookupValues values resolved) after = .ok back
          ∧ render (lookupValues values resolved) s = .ok (front ++ d ++ back) := by
  have spelled : arguments s
      = before.filterMap Piece.argument? ++ a :: after.filterMap Piece.argument? := by
    rw [arguments, cut, List.filterMap_append]
    rfl
  have here : a ∈ arguments s := by simp [spelled]
  obtain ⟨d, first⟩ := Option.isSome_iff_exists.1 (isSome_firstDefault? here given)
  have known := get?_of_extract h mem inside first
  refine ⟨d, first, fun alike => ?_, known, fun values resolved none done => ?_⟩
  · obtain ⟨own, given⟩ := Option.isSome_iff_exists.1 given
    have mine : firstDefault? a.name (arguments s) = some own := by
      rw [spelled]
      exact firstDefault?_append_cons given fun b earlier =>
        alike b (mem_filterMap_argument?_iff.1 earlier)
    rw [given, ← mine, first]
  · have tokens : ∀ b ∈ arguments s, (lookupValues values resolved).lacks b = false :=
      fun b there => lacks_of_extract h mem inside done there
    have value : (lookupValues values resolved).valueOf a = .ok d := by
      have found := get?_lookupValues (nodup_names_of_extract h) done known
      rw [none, Option.none_or] at found
      rw [Values.valueOf_ok_iff, found, Option.some_or]
    exact exists_render_around cut tokens value

/-- A file that spells one argument in its name and twice in a line. -/
def farewell : Entry :=
  ⟨"#\x7bwho:you\x7d".toList, .file, ".".toList, 0o644,
    some "Bye, #\x7bwho\x7d or #\x7bwho:you\x7d!".toList, []⟩

/-- Without values the last token of the line is rendered as its own default. -/
theorem default_of_extract_farewell :
    ∃ c resolved front back, extract [farewell] = .ok c ∧ c.resolve .empty = .ok resolved
      ∧ c.get? "who".toList = some ⟨"who".toList, some "you".toList⟩
      ∧ render (lookupValues .empty resolved) "Bye, #\x7bwho\x7d or #\x7bwho:you\x7d!".toList
        = .ok (front ++ "you".toList ++ back) := by
  have extracted : extract [farewell] = .ok [⟨"who".toList, some "you".toList⟩] := by
    decide +kernel
  have cut : pieces "Bye, #\x7bwho\x7d or #\x7bwho:you\x7d!".toList
      = pieces "Bye, #\x7bwho\x7d or ".toList
        ++ .token ⟨"who".toList, some "you".toList⟩ :: [.literal '!'] := by
    decide +kernel
  have plain : arguments "Bye, #\x7bwho\x7d or ".toList = [⟨"who".toList, none⟩] := by
    decide +kernel
  obtain ⟨d, _, own, known, rendered⟩ := default_of_extract extracted List.mem_cons_self
    (by decide +kernel) cut rfl
  obtain rfl : "you".toList = d := by
    refine Option.some.inj (own fun b earlier _ => .inl ?_)
    have only := mem_arguments_iff.2 earlier
    rw [plain, List.mem_singleton] at only
    rw [only]
  obtain ⟨front, back, _, _, whole⟩ := rendered .empty
    (SortedMap.empty.insert "who".toList "you".toList) rfl rfl
  exact ⟨_, _, front, back, extracted, rfl, known, whole⟩

/-- A file in which a line gives two defaults for one name. -/
def twoDefaults : Entry :=
  ⟨"a.txt".toList, .file, ".".toList, 0o644, some "#\x7bx:1\x7d #\x7bx:2\x7d".toList, []⟩

/-- The second token of the line is rendered as the default of the first. -/
theorem exists_default_not_kept :
    ∃ a c resolved, extract [twoDefaults] = .ok c ∧ c.resolve .empty = .ok resolved
      ∧ a ∈ arguments "#\x7bx:1\x7d #\x7bx:2\x7d".toList ∧ a.default? = some "2".toList
      ∧ c.get? a.name = some ⟨a.name, some "1".toList⟩
      ∧ render (lookupValues .empty resolved) "#\x7bx:1\x7d #\x7bx:2\x7d".toList
        = .ok "1 1".toList :=
  ⟨⟨"x".toList, some "2".toList⟩, [⟨"x".toList, some "1".toList⟩],
    SortedMap.empty.insert "x".toList "1".toList, by decide +kernel, rfl,
    by decide +kernel, rfl, by decide +kernel, by decide +kernel⟩

end Contract

end Scaffold
