import Scaffold.Proofs.Argument.Resolve
import Scaffold.Proofs.Template.Extraction

/-!
# Values that are assigned

Assignments that give each argument the written form of its token are read as what they
say, in whatever order they stand and however often one is repeated. Where every argument
of a contract has a value, the contract is resolved, and resolving it adds nothing.
-/

namespace Scaffold

namespace Placeholder

/-- The assignment of its own token to an argument. -/
def assignment (a : Argument) : Text := a.name ++ '=' :: token a

variable {a b : Argument}

theorem parseAssignment_assignment (h : IsSpellable a) :
    Values.parseAssignment (assignment a) = .ok (a.name, token a) := by
  have noEquals : '=' ∉ a.name := fun mem => absurd (h.name _ mem) (by decide)
  have trimmed : Text.trim a.name = a.name :=
    Text.trim_eq_self fun c mem => not_isBlank_of_isWordChar (h.name c mem)
  simp [Values.parseAssignment, assignment, Text.cut?_append noEquals, trimmed, h.nonempty]

theorem name_eq_of_assignment_eq (h : IsSpellable a) (h' : IsSpellable b)
    (same : assignment a = assignment b) : a.name = b.name := by
  have read := (parseAssignment_assignment h).symm.trans
    (same ▸ parseAssignment_assignment h')
  exact congrArg Prod.fst (Except.ok.inj read)

end Placeholder

open Placeholder

variable {l : List Argument} {ts : List Text} {values : Values}

/-- Read onto values that are known, one reading after the other. -/
private theorem exists_foldlM (spellable : ∀ a ∈ l, IsSpellable a) (agree : Argument.Agree l)
    (only : ∀ t ∈ ts, ∃ a ∈ l, t = assignment a) (found : Values) :
    ∃ values, (ts.foldlM (fun values t => do
        let (name, value) ← Values.parseAssignment t
        return values.insert name value) found : Except Error Values) = .ok values
      ∧ ∀ a ∈ l, assignment a ∈ ts ∨ found.get? a.name = some (token a) →
        values.get? a.name = some (token a) := by
  induction ts generalizing found with
  | nil => exact ⟨found, rfl, by simp⟩
  | cons t ts ih =>
    obtain ⟨b, mem, rfl⟩ := only t List.mem_cons_self
    obtain ⟨values, read, given⟩ := ih (fun t mem => only t (List.mem_cons_of_mem _ mem))
      (found.insert b.name (token b))
    refine ⟨values, ?_, fun a mem' known => given a mem' ?_⟩
    · rw [List.foldlM_cons, parseAssignment_assignment (spellable b mem)]
      exact read
    · by_cases same : a.name = b.name
      · obtain rfl := agree a mem' b mem same
        exact .inr (SortedMap.get?_insert_self ..)
      · rcases known with here | known
        · rcases List.mem_cons.1 here with here | later
          · exact absurd (name_eq_of_assignment_eq (spellable a mem') (spellable b mem) here) same
          · exact .inl later
        · exact .inr ((SortedMap.get?_insert ..).trans ((if_neg same).trans known))

/-- One reading after the other, the last one of them counts, and all of them say the same. -/
theorem Values.parseAssignments_of_agree (spellable : ∀ a ∈ l, IsSpellable a)
    (agree : Argument.Agree l) (only : ∀ t ∈ ts, ∃ a ∈ l, t = assignment a) :
    ∃ values, parseAssignments ts = .ok values
      ∧ ∀ a ∈ l, assignment a ∈ ts → values.get? a.name = some (token a) := by
  obtain ⟨values, read, given⟩ := exists_foldlM spellable agree only .empty
  exact ⟨values, read, fun a mem assigned => given a mem (.inl assigned)⟩

namespace Contract

private theorem resolveOnto_of_values {c : Contract}
    (given : ∀ a ∈ c, ∃ v, values.get? a.name = some v) (found : Values)
    (agree : ∀ k v, found.get? k = some v → values.get? k = some v) :
    ∃ resolved, resolveOnto values found c = .ok resolved
      ∧ ∀ k v, resolved.get? k = some v → values.get? k = some v := by
  induction c generalizing found with
  | nil => exact ⟨found, rfl, agree⟩
  | cons a c ih =>
    obtain ⟨v, known⟩ := given a List.mem_cons_self
    have value : values.valueOf a = .ok v := by simp only [Values.valueOf, known]
    simp only [resolveOnto, value]
    refine ih (fun a mem => given a (List.mem_cons_of_mem _ mem)) _ fun k w set => ?_
    rw [SortedMap.get?_insert] at set
    split at set
    · rename_i same
      rw [TextKey.text_injective k a.name same, known, set]
    · exact agree k w set

/-- If every argument has a value, the final values are those that were given. -/
theorem resolve_of_values {c : Contract} (given : ∀ a ∈ c, ∃ v, values.get? a.name = some v) :
    ∃ resolved, c.resolve values = .ok resolved
      ∧ ∀ k, (Instantiation.lookupValues values resolved).get? k = values.get? k := by
  obtain ⟨resolved, done, agree⟩ := resolveOnto_of_values given .empty (by simp)
  refine ⟨resolved, done, fun k => ?_⟩
  rw [Instantiation.lookupValues, SortedMap.get?_update]
  cases set : resolved.get? k with
  | none => rw [Option.none_or]
  | some v => rw [agree k v set, Option.some_or]

end Contract

end Scaffold
