import Scaffold.Proofs.Template.Spelled
import Scaffold.Proofs.Value.Buffer

/-!
# The order of the entries

Whether an extraction fails, and which default a name has, depends on the defaults that the
strings of the entries give and not on their order: where no two of them contradict each other,
the first default of a name is the only one. So entries in another order have a contract of the
same arguments in another order, which is resolved to the same values.
-/

namespace Scaffold

variable {a : Argument} {n d : Text} {l l' : List Argument} {c c' : Contract}
  {values resolved : Values} {entries entries' : List Entry}

namespace Argument

namespace Consistent

theorem perm (h : Consistent l) (perm : l.Perm l') : Consistent l' :=
  fun n d d' mem mem' => h n d d' (perm.mem_iff.2 mem) (perm.mem_iff.2 mem')

theorem firstDefault?_eq_some_iff (h : Consistent l) :
    firstDefault? n l = some d ↔ ⟨n, some d⟩ ∈ l :=
  ⟨exists_of_firstDefault?, h.firstDefault?_eq⟩

/-- The first default of a name does not depend on the order of consistent arguments. -/
theorem firstDefault?_perm (h : Consistent l) (perm : l.Perm l') :
    firstDefault? n l = firstDefault? n l' := by
  apply Option.ext
  intro d
  rw [h.firstDefault?_eq_some_iff, (h.perm perm).firstDefault?_eq_some_iff, perm.mem_iff]

/-- Consistent arguments in another order are collected to the same ones. -/
theorem collect_perm (h : Consistent l) (perm : l.Perm l') : (collect l).Perm (collect l') := by
  have names : ((l.map name).eraseDups).Perm ((l'.map name).eraseDups) := by
    have once (l : List Argument) : ((l.map name).eraseDups).Nodup :=
      names_collect ▸ nodup_names_collect
    rw [List.perm_ext_iff_of_nodup (once l) (once l')]
    intro n
    rw [List.mem_eraseDups, List.mem_eraseDups]
    exact (perm.map name).mem_iff
  rw [collect_eq_map, collect_eq_map l']
  simp only [h.firstDefault?_perm perm]
  exact names.map _

end Consistent

end Argument

namespace Contract

theorem get?_eq_some_iff (once : c.names.Nodup) : c.get? n = some a ↔ a ∈ c ∧ a.name = n := by
  constructor
  · exact fun found => ⟨List.mem_of_find?_eq_some found, name_of_get? found⟩
  · rintro ⟨mem, rfl⟩
    exact get?_of_mem once mem

/-- Where every name stands once, its argument is found in any order. -/
theorem get?_perm (once : c.names.Nodup) (perm : c.Perm c') : c.get? n = c'.get? n := by
  apply Option.ext
  intro a
  rw [get?_eq_some_iff once, get?_eq_some_iff ((perm.map Argument.name).nodup_iff.1 once),
    perm.mem_iff]

/-- A contract is resolved to the same values in any order. -/
theorem resolve_ok_of_perm (once : c.names.Nodup) (perm : c.Perm c')
    (done : c.resolve values = .ok resolved) : c'.resolve values = .ok resolved := by
  have given : c'.find? values.lacks = none := by
    have none := exists_resolved_iff.1 ⟨_, done⟩
    rw [List.find?_eq_none] at none ⊢
    exact fun a mem => none a (perm.mem_iff.2 mem)
  obtain ⟨resolved', done'⟩ := exists_resolved_iff.2 given
  have same : resolved = resolved' := by
    apply SortedMap.ext_get?
    intro n
    rw [get?_resolved once done, get?_resolved ((perm.map Argument.name).nodup_iff.1 once) done',
      get?_perm once perm]
  rw [done', same]

theorem resolve_perm (once : c.names.Nodup) (perm : c.Perm c') (values : Values) :
    (∃ resolved, c.resolve values = .ok resolved ∧ c'.resolve values = .ok resolved)
      ∨ ∃ e e', c.resolve values = .error e ∧ c'.resolve values = .error e' := by
  cases done : c.resolve values with
  | ok resolved => exact .inl ⟨resolved, rfl, resolve_ok_of_perm once perm done⟩
  | error e =>
    cases done' : c'.resolve values with
    | error e' => exact .inr ⟨e, e', rfl, rfl⟩
    | ok resolved =>
      have back := resolve_ok_of_perm ((perm.map Argument.name).nodup_iff.1 once) perm.symm done'
      simp [done] at back

/-- Entries in another order either have no contract in any of the two orders, or contracts with
the same arguments, which are in another order at most. Then the names of arguments that an entry
gets depend on that entry alone, and with whatever values both contracts are resolved to the same
values or none is. -/
theorem extract_of_perm (perm : entries.Perm entries') :
    (∃ e e', extract entries = .error e ∧ extract entries' = .error e')
      ∨ ∃ c c', extract entries = .ok c ∧ extract entries' = .ok c' ∧ c.Perm c'
        ∧ Template.ofEntries entries = .ok ⟨entries.map Entry.withArgumentNames, c⟩
        ∧ Template.ofEntries entries' = .ok ⟨entries'.map Entry.withArgumentNames, c'⟩
        ∧ ∀ values, (∃ resolved, c.resolve values = .ok resolved ∧ c'.resolve values = .ok resolved)
          ∨ ∃ e e', c.resolve values = .error e ∧ c'.resolve values = .error e' := by
  have declared : (declaredIn entries).Perm (declaredIn entries') := perm.flatMap_right _
  by_cases consistent : Argument.Consistent (declaredIn entries)
  · have extracted := extract_ok_iff.2 ⟨consistent, rfl⟩
    have extracted' := extract_ok_iff.2 ⟨consistent.perm declared, rfl⟩
    have arguments := consistent.collect_perm declared
    have made : Template.ofEntries entries
        = .ok ⟨entries.map Entry.withArgumentNames, Argument.collect (declaredIn entries)⟩ := by
      rw [Template.ofEntries, extracted]
    have made' : Template.ofEntries entries'
        = .ok ⟨entries'.map Entry.withArgumentNames, Argument.collect (declaredIn entries')⟩ := by
      rw [Template.ofEntries, extracted']
    have resolves := resolve_perm (nodup_names_of_extract extracted) arguments
    exact .inr ⟨_, _, extracted, extracted', arguments, made, made', resolves⟩
  · have consistent' : ¬ Argument.Consistent (declaredIn entries') := by
      intro consistent'
      exact consistent (consistent'.perm declared.symm)
    obtain ⟨e, failed⟩ := exists_extract_error_iff.2 consistent
    obtain ⟨e', failed'⟩ := exists_extract_error_iff.2 consistent'
    exact .inl ⟨e, e', failed, failed'⟩

/-- What the directory and then the file of the settings declare. -/
def settingsContract : Contract :=
  [⟨"model".toList, some "small".toList⟩, ⟨"os".toList, some "linux".toList⟩, ⟨"run".toList, none⟩]

/-- What the file and then the directory declare. -/
def settingsContractFileFirst : Contract :=
  [⟨"os".toList, some "linux".toList⟩, ⟨"run".toList, none⟩, ⟨"model".toList, some "small".toList⟩]

/-- With the file in front of its directory the arguments come in another order, and have the
same defaults and values. -/
theorem extract_of_perm_settingsFile :
    extract settingsFile = .ok settingsContract
      ∧ extract settingsFile.reverse = .ok settingsContractFileFirst
      ∧ settingsContract.Perm settingsContractFileFirst
      ∧ ∃ resolved,
        settingsContract.resolve (.insert .empty "run".toList "it".toList) = .ok resolved
        ∧ settingsContractFileFirst.resolve (.insert .empty "run".toList "it".toList)
          = .ok resolved := by
  have extracted : extract settingsFile = .ok settingsContract := by decide +kernel
  have extracted' : extract settingsFile.reverse = .ok settingsContractFileFirst := by
    decide +kernel
  have given : settingsContract.find? (Values.lacks (.insert .empty "run".toList "it".toList))
      = none := by
    decide +kernel
  rcases extract_of_perm (List.reverse_perm settingsFile).symm with
    ⟨_, _, failed, _⟩ | ⟨c, c', found, found', same, _, _, resolves⟩
  · simp [extracted] at failed
  · obtain rfl := Except.ok.inj (extracted.symm.trans found)
    obtain rfl := Except.ok.inj (extracted'.symm.trans found')
    refine ⟨extracted, extracted', same, ?_⟩
    rcases resolves (.insert .empty "run".toList "it".toList) with done | ⟨_, _, failed, _⟩
    · exact done
    · obtain ⟨_, done⟩ := exists_resolved_iff.2 given
      exact absurd (failed.symm.trans done) (by simp)

end Contract

end Scaffold
