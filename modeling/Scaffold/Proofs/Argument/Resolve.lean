import Scaffold.Instantiation.Basic
import Scaffold.Proofs.Argument.Collect

/-!
# Contracts that are resolved

A contract is resolved unless an argument without a default is given no value; the first
such argument is the one that is reported. Otherwise every argument has the value that was
given for its name, or its default. Values for other names are not looked at.
-/

namespace Scaffold

namespace SortedMap

variable {κ β : Type} [TextKey κ] {d other : SortedMap κ β} {k : κ}

open TextKey (text)

private theorem get?_insertAll {l : List (κ × β)}
    (ascending : l.Pairwise fun a b => text a.1 < text b.1) :
    (d.insertAll l).get? k = (find? k l).or (d.get? k) := by
  induction l generalizing d with
  | nil => rfl
  | cons e l ih =>
    obtain ⟨first, more⟩ := List.pairwise_cons.1 ascending
    have step : (d.insertAll (e :: l)).get? k = (find? k l).or ((d.insert e.1 e.2).get? k) :=
      ih more
    rw [step, get?_insert, find?]
    split
    · rename_i same
      have last : find? k l = none := by
        rw [Option.eq_none_iff_forall_ne_some]
        intro v found
        have later := first _ (mem_of_find?_eq_some found)
        rw [← same] at later
        exact text_lt_irrefl k later
      rw [last, Option.none_or, Option.some_or]
    · rfl

/-- The values of an update are those that it sets, and the old ones for other keys. -/
theorem get?_update : (d.update other).get? k = (other.get? k).or (d.get? k) :=
  get?_insertAll other.ascending

end SortedMap

variable {a : Argument} {n : Text} {c : Contract} {values values' found resolved : Values}
  {e : Error}

namespace Values

/-- No value is given for the argument, and it has no default. -/
def lacks (values : Values) (a : Argument) : Bool := a.isRequired && !values.contains a.name

theorem lacks_iff : values.lacks a = true ↔ values.get? a.name = none ∧ a.default? = none := by
  simp [lacks, Argument.isRequired, SortedMap.contains, and_comm]

theorem not_lacks_iff :
    values.lacks a = false ↔ ∃ v, (values.get? a.name).or a.default? = some v := by
  rw [← Bool.not_eq_true, lacks_iff]
  cases values.get? a.name <;> cases a.default? <;> simp

/-- The value of an argument is the one that is given, or its default. -/
theorem valueOf_ok_iff {v : Text} :
    values.valueOf a = .ok v ↔ (values.get? a.name).or a.default? = some v := by
  unfold valueOf
  cases values.get? a.name <;> cases a.default? <;> simp

theorem valueOf_error_iff :
    values.valueOf a = .error e ↔ values.lacks a = true ∧ e = .missingArgument a.name := by
  rw [lacks_iff]
  unfold valueOf
  cases values.get? a.name <;> cases a.default? <;> simp [eq_comm]

theorem valueOf_congr (same : values.get? a.name = values'.get? a.name) :
    values.valueOf a = values'.valueOf a := by
  simp only [valueOf, same]

end Values

namespace Contract

private theorem resolveOnto_error_iff : resolveOnto values found c = .error e
    ↔ ∃ a, c.find? values.lacks = some a ∧ e = .missingArgument a.name := by
  induction c generalizing found with
  | nil => simp [resolveOnto]
  | cons a c ih =>
    rw [resolveOnto, List.find?_cons]
    cases value : values.valueOf a with
    | error e' =>
      obtain ⟨missing, rfl⟩ := Values.valueOf_error_iff.1 value
      simp [missing, eq_comm]
    | ok v =>
      rw [Values.not_lacks_iff.2 ⟨v, Values.valueOf_ok_iff.1 value⟩]
      exact ih

/-- A contract is not resolved if an argument without a default is given no value, and the
first one of them is reported. -/
theorem resolve_error_iff : c.resolve values = .error e
    ↔ ∃ a, c.find? values.lacks = some a ∧ e = .missingArgument a.name :=
  resolveOnto_error_iff

/-- A contract is resolved if none of its arguments lacks a value. -/
theorem exists_resolved_iff :
    (∃ resolved, c.resolve values = .ok resolved) ↔ c.find? values.lacks = none := by
  cases first : c.find? values.lacks with
  | some a =>
    have failed := resolve_error_iff.2 ⟨a, first, rfl⟩
    simp [failed]
  | none =>
    cases done : c.resolve values with
    | ok resolved => simp
    | error e =>
      obtain ⟨a, found, _⟩ := resolve_error_iff.1 done
      simp [first] at found

private theorem resolveOnto_congr (same : ∀ a ∈ c, values.valueOf a = values'.valueOf a) :
    resolveOnto values found c = resolveOnto values' found c := by
  induction c generalizing found with
  | nil => rfl
  | cons a c ih =>
    have more (found : Values) : resolveOnto values found c = resolveOnto values' found c :=
      ih fun a mem => same a (List.mem_cons_of_mem _ mem)
    simp only [resolveOnto, same a List.mem_cons_self, more]

/-- Only the final values of its arguments count for a contract. -/
theorem resolve_congr (same : ∀ a ∈ c, values.valueOf a = values'.valueOf a) :
    c.resolve values = c.resolve values' :=
  resolveOnto_congr same

private theorem get?_resolveOnto (once : c.names.Nodup)
    (done : resolveOnto values found c = .ok resolved) :
    resolved.get? n = match c.get? n with
      | none => found.get? n
      | some a => (values.get? n).or a.default? := by
  induction c generalizing found with
  | nil =>
    obtain rfl : found = resolved := Except.ok.inj done
    rfl
  | cons a c ih =>
    obtain ⟨new, once⟩ := List.nodup_cons.1 once
    rw [resolveOnto] at done
    split at done
    · simp at done
    · rename_i v value
      rw [ih once done, get?, get?, List.find?_cons, SortedMap.get?_insert]
      by_cases same : a.name = n
      · subst same
        have absent : List.find? (fun b => decide (b.name = a.name)) c = none :=
          get?_eq_none_iff.2 new
        simp [absent, Values.valueOf_ok_iff.1 value]
      · simp [same, TextKey.text, Ne.symm same]

/-- Every argument is resolved to the value that is given for it, or to its default. -/
theorem get?_resolved (once : c.names.Nodup) (done : c.resolve values = .ok resolved) :
    resolved.get? n = (c.get? n).bind fun a => (values.get? n).or a.default? := by
  rw [get?_resolveOnto once done]
  cases c.get? n <;> rfl

/-- What an argument is rendered as once the contract is resolved. -/
theorem get?_lookupValues (once : c.names.Nodup) (done : c.resolve values = .ok resolved)
    (known : c.get? n = some a) :
    (Instantiation.lookupValues values resolved).get? n = (values.get? n).or a.default? := by
  rw [Instantiation.lookupValues, SortedMap.get?_update, get?_resolved once done, known,
    Option.bind_some]
  cases values.get? n <;> cases a.default? <;> rfl

/-- Once a contract is resolved, all of its names have values. -/
theorem isSome_get?_lookupValues (done : c.resolve values = .ok resolved)
    (once : c.names.Nodup) (known : n ∈ c.names) :
    ((Instantiation.lookupValues values resolved).get? n).isSome := by
  obtain ⟨a, found⟩ := Option.ne_none_iff_exists'.1 (mt get?_eq_none_iff.1 (not_not.2 known))
  rw [get?_lookupValues once done found]
  have given := List.find?_eq_none.1 (exists_resolved_iff.1 ⟨_, done⟩) a
    (List.mem_of_find?_eq_some found)
  obtain ⟨v, value⟩ := Values.not_lacks_iff.1 (Bool.eq_false_iff.2 given)
  rw [name_of_get? found] at value
  exact Option.isSome_of_mem value

end Contract

end Scaffold
