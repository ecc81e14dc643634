import Scaffold.Proofs.Template.Defaults

/-!
# Conflicts

Each string of an entry gives a name at most one default, the first that one of its tokens has
for it. Of two strings that give a name different defaults the later one is refused, and an
extraction stops at the first default that is refused. What it reports is where that default
stands and where the first one for the name does.
-/

namespace Scaffold

open Argument

variable {entries : List Entry} {n d : Text} {err : Error}

/-- A default that a string gives for a name, and where the string stands. -/
structure GivenDefault where
  name : Text
  value : Text
  source : Source
  deriving DecidableEq

namespace GivenDefault

/-- What a string gives: the first default that its tokens have for each name, in the order in
which the names occur. -/
def inText (source : Source) (s : Text) : List GivenDefault :=
  ((Placeholder.arguments s).map Argument.name).eraseDups.filterMap fun n =>
    (firstDefault? n (Placeholder.arguments s)).map fun d => ⟨n, d, source⟩

/-- No two of the defaults are different ones for one name. -/
def Agreed (given : List GivenDefault) : Prop :=
  ∀ g ∈ given, ∀ g' ∈ given, g.name = g'.name → g.value = g'.value

end GivenDefault

/-- What the strings of an entry give: its name first, then the lines of its content. -/
def Entry.givenDefaults (e : Entry) : List GivenDefault :=
  GivenDefault.inText ⟨e.path, .name⟩ e.name
    ++ (e.content.elim [] (Text.split '\n')).flatMap (GivenDefault.inText ⟨e.path, .content⟩)

/-- What is given entry by entry. -/
def givenIn (entries : List Entry) : List GivenDefault := entries.flatMap Entry.givenDefaults

/-- `second` is the earliest default that differs from an earlier one for its name, and `first`
is the first default for that name. -/
def IsFirstConflict (given : List GivenDefault) (first second : GivenDefault) : Prop :=
  ∃ seen later, given = seen ++ second :: later ∧ GivenDefault.Agreed seen
    ∧ seen.find? (fun g => g.name = second.name) = some first ∧ first.value ≠ second.value

/-! ## What occurs and what is given -/

namespace Occurrence

/-- The default of an occurrence, if it has one. -/
def given? (o : Occurrence) : Option GivenDefault :=
  o.argument.default?.map fun d => ⟨o.argument.name, d, o.source⟩

/-- A string gives the defaults of what it declares. -/
theorem filterMap_given?_declared (source : Source) (s : Text) :
    (Placeholder.declared s).filterMap (fun a => given? ⟨a, source⟩)
      = GivenDefault.inText source s := by
  rw [Placeholder.declared, collect_eq_map, List.filterMap_map]
  rfl

end Occurrence

theorem Entry.filterMap_given?_occurrences (e : Entry) :
    e.occurrences.filterMap Occurrence.given? = e.givenDefaults := by
  have lines : e.contentArguments
      = (e.content.elim [] (Text.split '\n')).flatMap Placeholder.declared := by
    cases content : e.content <;> simp [contentArguments, content]
  rw [occurrences, List.filterMap_append, List.filterMap_map, List.filterMap_map, lines,
    List.filterMap_flatMap, givenDefaults]
  exact congrArg₂ (· ++ ·) (Occurrence.filterMap_given?_declared _ _)
    (congrArg (List.flatMap · _) (funext (Occurrence.filterMap_given?_declared _)))

theorem filterMap_given?_occurrencesIn (entries : List Entry) :
    (entries.flatMap Entry.occurrences).filterMap Occurrence.given? = givenIn entries := by
  rw [List.filterMap_flatMap, givenIn]
  exact congrArg (List.flatMap · entries) (funext Entry.filterMap_given?_occurrences)

/-- The defaults that are declared are those that are given. -/
theorem mem_declaredIn_iff_given :
    ⟨n, some d⟩ ∈ declaredIn entries ↔ ∃ g ∈ givenIn entries, g.name = n ∧ g.value = d := by
  rw [← arguments_occurrencesIn, ← filterMap_given?_occurrencesIn]
  constructor
  · intro mem
    obtain ⟨⟨_, source⟩, there, rfl⟩ := List.mem_map.1 mem
    exact ⟨⟨n, d, source⟩, List.mem_filterMap.2 ⟨_, there, rfl⟩, rfl, rfl⟩
  · rintro ⟨g, mem, rfl, rfl⟩
    obtain ⟨⟨⟨name, default?⟩, source⟩, there, made⟩ := List.mem_filterMap.1 mem
    obtain ⟨d, rfl, rfl⟩ := Option.map_eq_some_iff.1 made
    exact List.mem_map_of_mem there

/-! ## The first conflict -/

section

variable {given seen seen' later later' more : List GivenDefault}
  {first second first' second' g : GivenDefault}

namespace GivenDefault.Agreed

theorem mono (h : Agreed given) (part : more ⊆ given) : Agreed more :=
  fun g mem g' mem' => h g (part mem) g' (part mem')

/-- One more default agrees with the others if it repeats the first one for its name. -/
theorem concat_iff : Agreed (seen ++ [g])
    ↔ Agreed seen ∧ ∀ f, seen.find? (fun g' => g'.name = g.name) = some f → f.value = g.value := by
  constructor
  · intro h
    refine ⟨h.mono (List.subset_append_left _ _), fun f found => ?_⟩
    have name : f.name = g.name := by simpa using List.find?_some found
    exact h f (List.mem_append_left _ (List.mem_of_find?_eq_some found)) g (by simp) name
  · rintro ⟨agreed, repeats⟩
    have same : ∀ g' ∈ seen, g'.name = g.name → g'.value = g.value := by
      intro g' mem name
      obtain ⟨f, found⟩ : ∃ f, seen.find? (fun g' => g'.name = g.name) = some f :=
        Option.isSome_iff_exists.1 (List.find?_isSome.2 ⟨g', mem, by simpa using name⟩)
      have first : f.name = g.name := by simpa using List.find?_some found
      rw [← repeats f found]
      exact agreed g' mem f (List.mem_of_find?_eq_some found) (name.trans first.symm)
    intro g₁ mem₁ g₂ mem₂ name
    rw [List.mem_append, List.mem_singleton] at mem₁ mem₂
    rcases mem₁ with mem₁ | rfl <;> rcases mem₂ with mem₂ | rfl
    · exact agreed g₁ mem₁ g₂ mem₂ name
    · exact same g₁ mem₁ name
    · exact (same g₂ mem₂ name.symm).symm
    · rfl

end GivenDefault.Agreed

namespace IsFirstConflict

open GivenDefault

/-- What agrees ends in front of the conflict. -/
private theorem length_le (split : given = seen ++ second :: later)
    (found : seen.find? (fun g => g.name = second.name) = some first)
    (differ : first.value ≠ second.value) (part : more <+: given) (agreed : Agreed more) :
    more.length ≤ seen.length := by
  by_contra longer
  have front : seen ++ [second] <+: given := ⟨later, by rw [split, List.append_assoc]; rfl⟩
  have inside : seen ++ [second] <+: more :=
    List.prefix_of_prefix_length_le front part (by simp; omega)
  exact differ ((Agreed.concat_iff.1 (agreed.mono inside.subset)).2 first found)

theorem not_agreed (h : IsFirstConflict given first second) : ¬ Agreed given := by
  obtain ⟨seen, later, split, _, found, differ⟩ := h
  intro agreed
  have short := length_le split found differ List.prefix_rfl agreed
  rw [split, List.length_append, List.length_cons] at short
  omega

/-- There is only one first conflict. -/
theorem unique (h : IsFirstConflict given first second)
    (h' : IsFirstConflict given first' second') : first = first' ∧ second = second' := by
  obtain ⟨seen, later, split, agreed, found, differ⟩ := h
  obtain ⟨seen', later', split', agreed', found', differ'⟩ := h'
  have length : seen.length = seen'.length :=
    Nat.le_antisymm (length_le split' found' differ' (split ▸ List.prefix_append _ _) agreed)
      (length_le split found differ (split' ▸ List.prefix_append _ _) agreed')
  obtain ⟨rfl, rest⟩ := List.append_inj (split.symm.trans split') length
  obtain ⟨rfl, _⟩ := List.cons.inj rest
  exact ⟨Option.some.inj (found.symm.trans found'), rfl⟩

end IsFirstConflict

namespace Contract

open GivenDefault

variable {known : Defaults} {occurrences : List Occurrence}

/-- What is known are the first defaults of what was seen. -/
def Defaults.Holds (known : Defaults) (seen : List GivenDefault) : Prop :=
  ∀ n, known.get? n = (seen.find? fun g => g.name = n).map fun g => (g.value, g.source)

namespace Defaults.Holds

theorem insert (h : known.Holds seen) (new : seen.find? (fun g' => g'.name = g.name) = none) :
    Defaults.Holds (known.insert g.name (g.value, g.source)) (seen ++ [g]) := by
  intro n
  rw [SortedMap.get?_insert, List.find?_append, h n]
  by_cases same : g.name = n
  · subst same
    simp [new]
  · simp [same, TextKey.text, Ne.symm same]

theorem repeated (h : known.Holds seen) {f : GivenDefault}
    (found : seen.find? (fun g' => g'.name = g.name) = some f) : known.Holds (seen ++ [g]) := by
  intro n
  rw [List.find?_append, h n]
  by_cases same : g.name = n
  · subst same
    simp [found]
  · simp [same]

end Defaults.Holds

/-- The check stops at the first conflict of what was seen before and what occurs, by induction
on what still occurs. -/
theorem checkDefaults_error_iff (holds : known.Holds seen) (agreed : Agreed seen) :
    checkDefaults known occurrences = .error err
      ↔ ∃ first second,
        IsFirstConflict (seen ++ occurrences.filterMap Occurrence.given?) first second
        ∧ err = .conflictingDefaults second.name first.source second.source := by
  induction occurrences generalizing known seen with
  | nil =>
    rw [List.filterMap_nil, List.append_nil]
    refine iff_of_false (by simp [checkDefaults]) ?_
    rintro ⟨first, second, conflict, _⟩
    exact conflict.not_agreed agreed
  | cons o more ih =>
    obtain ⟨⟨name, default?⟩, source⟩ := o
    cases default? with
    | none => exact ih holds agreed
    | some value =>
      let g : GivenDefault := ⟨name, value, source⟩
      have given : (⟨⟨name, some value⟩, source⟩ :: more : List Occurrence).filterMap
          Occurrence.given? = g :: more.filterMap Occurrence.given? := rfl
      have looked := holds name
      rw [checkDefaults, given]
      dsimp only
      cases found : seen.find? (fun g => g.name = name) with
      | none =>
        rw [found] at looked
        rw [looked, List.append_cons]
        exact ih (holds.insert (g := g) found)
          (Agreed.concat_iff.2 ⟨agreed, by simp [g, found]⟩)
      | some first =>
        rw [found] at looked
        rw [looked]
        dsimp only [Option.map_some]
        by_cases same : first.value = value
        · rw [if_pos same, List.append_cons]
          refine ih (holds.repeated (g := g) found) ?_
          refine Agreed.concat_iff.2 ⟨agreed, fun f there => ?_⟩
          rw [← Option.some.inj (found.symm.trans there), same]
        · rw [if_neg same, Except.error.injEq]
          have conflict : IsFirstConflict (seen ++ g :: more.filterMap Occurrence.given?) first g :=
            ⟨seen, _, rfl, agreed, found, same⟩
          constructor
          · rintro rfl
            exact ⟨first, g, conflict, rfl⟩
          · rintro ⟨first', second', conflict', rfl⟩
            obtain ⟨rfl, rfl⟩ := conflict.unique conflict'
            rfl

end Contract

end

namespace Contract

/-- Defaults that are declared are consistent if those that are given agree. -/
theorem consistent_iff_agreed :
    Consistent (declaredIn entries) ↔ GivenDefault.Agreed (givenIn entries) := by
  constructor
  · intro consistent g mem g' mem' name
    exact consistent g.name g.value g'.value (mem_declaredIn_iff_given.2 ⟨g, mem, rfl, rfl⟩)
      (mem_declaredIn_iff_given.2 ⟨g', mem', name.symm, rfl⟩)
  · intro agreed n d d' mem mem'
    obtain ⟨g, there, name, rfl⟩ := mem_declaredIn_iff_given.1 mem
    obtain ⟨g', there', name', rfl⟩ := mem_declaredIn_iff_given.1 mem'
    exact agreed g there g' there' (name.trans name'.symm)

/-- An extraction fails exactly if two of the defaults that the strings of the entries give are
different ones for one name. It reports the earliest default that differs from an earlier one
for its name, together with the place of the first default for that name. -/
theorem extract_error_iff_conflict (entries : List Entry) :
    ((∃ err, extract entries = .error err)
        ↔ ∃ g ∈ givenIn entries, ∃ g' ∈ givenIn entries, g.name = g'.name ∧ g.value ≠ g'.value)
      ∧ ∀ err, extract entries = .error err
        ↔ ∃ first second, IsFirstConflict (givenIn entries) first second
          ∧ err = .conflictingDefaults second.name first.source second.source := by
  constructor
  · rw [exists_extract_error_iff, consistent_iff_agreed]
    simp only [GivenDefault.Agreed, not_forall, exists_prop]
  · intro err
    have fresh : Defaults.Holds .empty [] := fun _ => rfl
    have checked : checkDefaults .empty (entries.flatMap Entry.occurrences) = .error err
        ↔ ∃ first second, IsFirstConflict (givenIn entries) first second
          ∧ err = .conflictingDefaults second.name first.source second.source := by
      rw [checkDefaults_error_iff fresh (by simp [GivenDefault.Agreed]), List.nil_append,
        filterMap_given?_occurrencesIn]
    rw [← checked, extract]
    cases checkDefaults .empty (entries.flatMap Entry.occurrences) <;> simp

/-- The second file contradicts two defaults of the first one, and that of `y` first. -/
example : extract
    [⟨"a.txt".toList, .file, ".".toList, 0o644,
        some "#\x7bx\x7d #\x7bx:1\x7d #\x7by:1\x7d".toList, []⟩,
      ⟨"b.txt".toList, .file, ".".toList, 0o644,
        some "#\x7by:2\x7d\n#\x7bx:2\x7d".toList, []⟩]
    = .error (.conflictingDefaults "y".toList ⟨"a.txt".toList, .content⟩
        ⟨"b.txt".toList, .content⟩) := by
  decide +kernel

end Contract

end Scaffold
