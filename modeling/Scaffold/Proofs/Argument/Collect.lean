import Mathlib.Data.List.Induction
import Mathlib.Data.List.Nodup
import Scaffold.Argument.Contract

/-!
# Arguments that are collected

Collecting keeps each name once, and with a name the first default that an occurrence
gives for it. So what a name stands for is known from the occurrences alone, and it does
not matter whether some of them were collected before.
-/

namespace Scaffold

variable {a b : Argument} {n d : Text} {l more : List Argument} {c : Contract}

namespace Argument

/-- The first default that an occurrence gives for a name. -/
def firstDefault? (n : Text) (l : List Argument) : Option Text :=
  l.findSome? fun a => if a.name = n then a.default? else none

@[simp] theorem firstDefault?_nil : firstDefault? n [] = none := rfl

@[simp] theorem firstDefault?_append :
    firstDefault? n (l ++ more) = (firstDefault? n l).or (firstDefault? n more) :=
  List.findSome?_append

theorem firstDefault?_singleton :
    firstDefault? n [a] = if a.name = n then a.default? else none := by
  simp [firstDefault?]

/-- The first default is that of an occurrence. -/
theorem exists_of_firstDefault? (h : firstDefault? n l = some d) : ⟨n, some d⟩ ∈ l := by
  obtain ⟨⟨name, default?⟩, mem, given⟩ := List.exists_of_findSome?_eq_some h
  split at given
  · rename_i same
    obtain rfl : name = n := same
    exact (show default? = some d from given) ▸ mem
  · simp at given

theorem firstDefault?_of_not_mem (h : n ∉ l.map name) : firstDefault? n l = none := by
  rw [Option.eq_none_iff_forall_ne_some]
  exact fun d given => h (List.mem_map_of_mem (exists_of_firstDefault? given))

/-- A default that is given for a name makes a first one. -/
theorem isSome_firstDefault? (mem : a ∈ l) (given : a.default?.isSome) :
    (firstDefault? a.name l).isSome := by
  rw [firstDefault?, List.isSome_findSome?, List.any_eq_true]
  exact ⟨a, mem, by rwa [if_pos rfl]⟩

/-- A default is the first one unless another one of its name stands in front of it. -/
theorem firstDefault?_append_cons (given : a.default? = some d)
    (alike : ∀ b ∈ l, b.name = a.name → b.default? = none ∨ b.default? = a.default?) :
    firstDefault? a.name (l ++ a :: more) = some d := by
  rw [firstDefault?_append]
  cases earlier : firstDefault? a.name l with
  | none => simp [firstDefault?, given]
  | some d' =>
    have same := alike _ (exists_of_firstDefault? earlier) rfl
    simpa [given] using same

/-- A name that is noted once more stays where it is; a new one goes to the end. -/
theorem names_note : (note a l).map name
    = if a.name ∈ l.map name then l.map name else l.map name ++ [a.name] := by
  induction l with
  | nil => simp [note]
  | cons known l ih =>
    rw [note]
    by_cases same : known.name = a.name
    · simp [same]
    · rw [if_neg same, List.map_cons, List.map_cons, ih]
      by_cases later : a.name ∈ l.map name
      · rw [if_pos later, if_pos (List.mem_cons_of_mem _ later)]
      · rw [if_neg later, if_neg (by simpa [Ne.symm same] using later), List.cons_append]

theorem eraseDups_concat {names : List Text} :
    (names ++ [n]).eraseDups = if n ∈ names then names.eraseDups else names.eraseDups ++ [n] := by
  rw [List.eraseDups_append]
  split
  · rename_i known
    simp [List.removeAll, known]
  · rename_i new
    simp [List.removeAll, new, List.eraseDups_cons]

/-- Names are collected in the order of first occurrence. -/
theorem names_collect : (collect l).map name = (l.map name).eraseDups := by
  induction l using List.reverseRecOn with
  | nil => rfl
  | append_singleton l a ih =>
    rw [collect_append_singleton, names_note, ih, List.map_append, List.map_singleton,
      eraseDups_concat]
    simp only [List.mem_eraseDups]

theorem mem_names_collect : n ∈ (collect l).map name ↔ n ∈ l.map name := by
  rw [names_collect, List.mem_eraseDups]

/-- No name is collected twice. -/
theorem nodup_names_collect : ((collect l).map name).Nodup := by
  induction l using List.reverseRecOn with
  | nil => simp
  | append_singleton l a ih =>
    rw [collect_append_singleton, names_note]
    split
    · exact ih
    · rename_i new
      rw [← List.concat_eq_append]
      exact List.Nodup.concat new ih

/-! ## Names that are told apart -/

/-- It does not matter whether the last names were told apart before. -/
theorem eraseDups_append_eraseDups (names more : List Text) :
    (names ++ more.eraseDups).eraseDups = (names ++ more).eraseDups := by
  induction more using List.reverseRecOn with
  | nil => rfl
  | append_singleton more n ih =>
    rw [eraseDups_concat, ← List.append_assoc, eraseDups_concat]
    by_cases known : n ∈ more
    · rw [if_pos known, if_pos (List.mem_append_right _ known), ih]
    · rw [if_neg known, ← List.append_assoc, eraseDups_concat, ih]
      simp only [List.mem_append, List.mem_eraseDups]

/-- It does not matter whether the first names were told apart before. -/
theorem eraseDups_eraseDups_append {names more : List Text} :
    (names.eraseDups ++ more).eraseDups = (names ++ more).eraseDups := by
  induction more using List.reverseRecOn with
  | nil =>
    rw [List.append_nil, List.append_nil]
    exact eraseDups_append_eraseDups [] names
  | append_singleton more n ih =>
    rw [← List.append_assoc, ← List.append_assoc, eraseDups_concat, eraseDups_concat, ih]
    simp only [List.mem_append, List.mem_eraseDups]

/-- Names that are told apart part by part and then over all parts are told apart at once. -/
theorem eraseDups_flatMap_eraseDups {α : Type} (f : α → List Text) (parts : List α) :
    (parts.flatMap fun part => (f part).eraseDups).eraseDups = (parts.flatMap f).eraseDups := by
  induction parts using List.reverseRecOn with
  | nil => rfl
  | append_singleton parts part ih =>
    simp only [List.flatMap_append, List.flatMap_singleton]
    rw [eraseDups_append_eraseDups, ← eraseDups_eraseDups_append, ih, eraseDups_eraseDups_append]

theorem distinctNames_eq_eraseDups (names : List Text) :
    distinctNames names = names.eraseDups := by
  induction names using List.reverseRecOn with
  | nil => rfl
  | append_singleton names n ih =>
    have step : distinctNames (names ++ [n])
        = if n ∈ distinctNames names then distinctNames names else distinctNames names ++ [n] := by
      rw [distinctNames, List.foldl_append]
      rfl
    rw [step, ih, eraseDups_concat]
    simp only [List.mem_eraseDups]

end Argument

namespace Contract

open Argument

theorem get?_eq_none_iff : c.get? n = none ↔ n ∉ c.names := by
  simp [get?, names]

theorem name_of_get? (h : c.get? n = some a) : a.name = n := by
  simpa using List.find?_some h

/-- Where a name stands once, its argument is the one that is found. -/
theorem get?_of_mem (once : c.names.Nodup) (mem : a ∈ c) : c.get? a.name = some a := by
  induction c with
  | nil => simp at mem
  | cons b c ih =>
    obtain ⟨new, once⟩ := List.nodup_cons.1 once
    rw [get?, List.find?_cons]
    rcases List.mem_cons.1 mem with rfl | later
    · simp
    · have differ : b.name ≠ a.name := fun same =>
        new (same ▸ List.mem_map_of_mem later)
      rw [decide_eq_false differ]
      exact ih once later

/-- Where a name stands once, the only default is the first. -/
theorem firstDefault?_eq_bind (once : c.names.Nodup) :
    firstDefault? n c = (c.get? n).bind default? := by
  cases found : c.get? n with
  | none => exact firstDefault?_of_not_mem (get?_eq_none_iff.1 found)
  | some a =>
    have mem : a ∈ c := List.mem_of_find?_eq_some found
    obtain rfl := name_of_get? found
    have only : ∀ d, firstDefault? a.name c = some d → a.default? = some d := by
      intro d first
      have found' := get?_of_mem once (exists_of_firstDefault? first)
      rw [Option.some.inj (found.symm.trans found')]
    rw [Option.bind_some]
    cases first : firstDefault? a.name c with
    | some d => exact (only d first).symm
    | none =>
      by_contra given
      have first' := isSome_firstDefault? mem (Option.isSome_iff_ne_none.2 (Ne.symm given))
      simp [first] at first'

/-- Noting an argument adds its name, or its default to a name that had none. -/
theorem get?_note : get? (note a l) n
    = if a.name = n then some ⟨n, ((get? l n).bind default?).or a.default?⟩ else get? l n := by
  induction l with
  | nil =>
    rw [note]
    split
    · rename_i same
      subst same
      simp [get?]
    · rename_i differ
      simp [get?, differ]
  | cons known l ih =>
    rw [note]
    by_cases same : known.name = a.name
    · rw [if_pos same]
      by_cases here : a.name = n
      · have first : known.name = n := same.trans here
        simp [get?, here, first]
      · have other : known.name ≠ n := same ▸ here
        simp [get?, here, other]
    · rw [if_neg same]
      by_cases first : known.name = n
      · have differ : a.name ≠ n := fun eq => same (first.trans eq.symm)
        simp [get?, first, differ]
      · simpa [get?, first] using ih

/-- A name is collected with the first default that is given for it. -/
theorem get?_collect :
    get? (collect l) n = if n ∈ l.map name then some ⟨n, firstDefault? n l⟩ else none := by
  induction l using List.reverseRecOn with
  | nil => rfl
  | append_singleton l a ih =>
    rw [collect_append_singleton, get?_note, ih, firstDefault?_append, firstDefault?_singleton,
      List.map_append, List.map_singleton]
    by_cases same : a.name = n
    · subst same
      by_cases known : a.name ∈ l.map name
      · simp [known]
      · simp [known, firstDefault?_of_not_mem known]
    · simp [same, Ne.symm same]

/-- What is collected gives the defaults that the occurrences give. -/
theorem firstDefault?_collect : firstDefault? n (collect l) = firstDefault? n l := by
  rw [firstDefault?_eq_bind nodup_names_collect, get?_collect]
  split
  · rfl
  · rename_i absent
    rw [Option.bind_none, firstDefault?_of_not_mem absent]

end Contract

namespace Argument

/-- What is collected has the names in the order of first occurrence, each with the first default
that is given for it. -/
theorem collect_eq_map (l : List Argument) :
    collect l = (l.map name).eraseDups.map fun n => ⟨n, firstDefault? n l⟩ := by
  have same : ∀ a ∈ collect l, a = ⟨a.name, firstDefault? a.name l⟩ := by
    intro a mem
    have found := Contract.get?_of_mem nodup_names_collect mem
    rw [Contract.get?_collect, if_pos (mem_names_collect.1 (List.mem_map_of_mem mem))] at found
    exact (Option.some.inj found).symm
  calc collect l = (collect l).map fun a => ⟨a.name, firstDefault? a.name l⟩ :=
        (List.map_id' _).symm.trans (List.map_congr_left same)
    _ = ((collect l).map name).map fun n => ⟨n, firstDefault? n l⟩ := by rw [List.map_map]; rfl
    _ = (l.map name).eraseDups.map fun n => ⟨n, firstDefault? n l⟩ := by rw [names_collect]

/-- Occurrences that are collected part by part and then over all parts are collected at once. -/
theorem collect_flatMap_collect {α : Type} (f : α → List Argument) (parts : List α) :
    collect (parts.flatMap fun part => collect (f part)) = collect (parts.flatMap f) := by
  have defaults (n : Text) : firstDefault? n (parts.flatMap fun part => collect (f part))
      = firstDefault? n (parts.flatMap f) := by
    induction parts with
    | nil => rfl
    | cons part parts ih =>
      rw [List.flatMap_cons, List.flatMap_cons, firstDefault?_append, firstDefault?_append, ih,
        Contract.firstDefault?_collect]
  have names : ((parts.flatMap fun part => collect (f part)).map name).eraseDups
      = ((parts.flatMap f).map name).eraseDups := by
    simp only [List.map_flatMap, names_collect]
    exact eraseDups_flatMap_eraseDups _ parts
  rw [collect_eq_map, collect_eq_map (parts.flatMap f), names]
  simp only [defaults]

end Argument

end Scaffold
