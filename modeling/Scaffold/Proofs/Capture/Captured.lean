import Scaffold.Proofs.Capture.Nested
import Scaffold.Proofs.Instantiation.Consults
import Scaffold.Proofs.Instantiation.Refused
import Scaffold.Proofs.Template.Spelled
import Scaffold.Proofs.Template.Stored

/-!
# The contract of a captured template

The contract of a template that is captured from a directory tree is made from the names
and contents of its entries alone. A plan renders parent paths too, but each of their names
is that of a directory entry. So the contract has every name for which a value can be asked:
it alone decides which argument is found missing, and values for other names have no
influence.
-/

namespace Scaffold

open FileSystem Instantiation Placeholder

/-- The template is made of the entries of a directory tree. -/
def Template.IsCaptured (t : Template) : Prop :=
  ∃ fs ps path entries, scan fs ps path = .ok entries ∧ ofEntries entries = .ok t

variable {t t' : Template} {e : Entry} {s n : Text} {a : Argument}
  {values values' resolved : Values} {target : Path} {fs : FileSystem}

namespace Template.IsCaptured

theorem exists_nested (h : t.IsCaptured) :
    ∃ placed, Nested placed ∧ placed.map Prod.snd = t.entries := by
  obtain ⟨fs, ps, path, entries, scanned, made⟩ := h
  obtain ⟨placed, nested, rfl, _⟩ := nested_of_scan scanned
  refine ⟨_, nested.map (f := Entry.withArgumentNames) fun _ => ⟨rfl, rfl, rfl⟩, ?_⟩
  simp [(ofEntries_ok made).2]

theorem wellFormed (h : t.IsCaptured) : t.WellFormed := by
  obtain ⟨fs, ps, path, entries, scanned, made⟩ := h
  obtain ⟨_, _, _, wellFormed⟩ := nested_of_scan scanned
  intro e mem
  rw [(ofEntries_ok made).2] at mem
  obtain ⟨e, there, rfl⟩ := List.mem_map.1 mem
  exact wellFormed e there

/-- The contract is what the entries declare. -/
theorem extract_eq (h : t.IsCaptured) : Contract.extract t.entries = .ok t.arguments := by
  obtain ⟨fs, ps, path, entries, _, made⟩ := h
  obtain ⟨extracted, same⟩ := ofEntries_ok made
  have declared : declaredIn (entries.map Entry.withArgumentNames) = declaredIn entries := by
    rw [declaredIn, List.flatMap_map]
    rfl
  rw [Contract.extract_ok_iff] at extracted ⊢
  rwa [same, declared]

/-- A captured template that is stored and read again is the same. -/
theorem eq_of_parse (h : t.IsCaptured) (stored : t' = t ∨ Template.parse t.render = .ok t') :
    t' = t := by
  rcases stored with same | read
  · exact same
  · exact (Except.ok.inj ((parse_render h.wellFormed).symm.trans read)).symm

/-- Every string that is read for an entry is read for tokens when the template is captured. -/
theorem exists_texts (h : t.IsCaptured) (mem : e ∈ t.entries) (read : e.Consults s) :
    ∃ d ∈ t.entries, s ∈ d.texts := by
  rcases read with inside | part
  · exact ⟨e, mem, inside⟩
  obtain ⟨placed, nested, eq⟩ := h.exists_nested
  rw [← eq] at mem
  obtain ⟨⟨names, e⟩, there, rfl⟩ := List.mem_map.1 mem
  obtain ⟨above, rfl, within⟩ := nested.exists_isWithin there
  rw [within.parent, components_parentPath within.steps] at part
  have above : s ∈ texts above := by
    rcases List.mem_append.1 part with root | part
    · split at root <;> simp at root
    · simpa using part
  obtain ⟨v, there, _, rfl⟩ := nested.exists_directory there rfl above
  exact ⟨v.2, eq ▸ List.mem_map_of_mem there, List.mem_cons_self⟩

/-- The contract has the name of every token that is read. -/
theorem mem_names (h : t.IsCaptured) (mem : e ∈ t.entries) (read : e.Consults s)
    (spelled : a ∈ Placeholder.arguments s) : a.name ∈ t.arguments.names := by
  obtain ⟨d, there, inside⟩ := h.exists_texts mem read
  exact Contract.mem_names_of_extract h.extract_eq there inside spelled

/-- Once the contract is resolved, every string that is read is rendered. -/
theorem exists_render (h : t.IsCaptured) (done : t.arguments.resolve values = .ok resolved)
    (mem : e ∈ t.entries) (read : e.Consults s) :
    ∃ r, Placeholder.render (lookupValues values resolved) s = .ok r := by
  obtain ⟨d, there, inside⟩ := h.exists_texts mem read
  exact Placeholder.exists_render fun a spelled =>
    Contract.lacks_of_extract h.extract_eq there inside done spelled

end Template.IsCaptured

/-! ## Missing arguments -/

theorem Instantiation.prepare_missing_iff (h : t.IsCaptured) :
    prepare t target values = .error (.missingArgument n)
      ↔ (t.arguments.find? values.lacks).map Argument.name = some n := by
  unfold prepare
  cases done : t.arguments.resolve values with
  | error e =>
    obtain ⟨a, first, rfl⟩ := Contract.resolve_error_iff.1 done
    simp [first]
  | ok resolved =>
    rw [Contract.exists_resolved_iff.1 ⟨resolved, done⟩]
    refine iff_of_false (fun failed => ?_) (by simp)
    dsimp only at failed
    split at failed
    · rename_i e refused
      obtain rfl := Except.error.inj failed
      rcases Plan.ofEntries_error refused with ⟨e, mem, s, read, unrendered⟩ | ⟨_, _, other⟩
      · obtain ⟨r, rendered⟩ := h.exists_render done mem read
        simp [rendered] at unrendered
      · simp at other
    · simp at failed

/-- Behind a target that passes the check, an instantiation of a captured template reports
an argument as missing exactly if it is the first one of the contract without a value and
without a default. If there is none, every string that is read is rendered. -/
theorem instantiate_missing_iff (h : t.IsCaptured) (available : checkTarget target fs = .ok () fs) :
    (∀ n, (∃ fs', instantiate t target values fs = .error (.missingArgument n) fs')
        ↔ (t.arguments.find? values.lacks).map Argument.name = some n)
      ∧ ((∀ a ∈ t.arguments, values.lacks a = false) →
        ∃ resolved, t.arguments.resolve values = .ok resolved
          ∧ ∀ e ∈ t.entries, ∀ s, e.Consults s →
            ∃ r, render (lookupValues values resolved) s = .ok r) := by
  refine ⟨fun n => ?_, fun given => ?_⟩
  · have missing : prepare t target values = .error (.missingArgument n)
        ↔ (t.arguments.find? values.lacks).map Argument.name = some n := prepare_missing_iff h
    rw [← missing]
    constructor
    · rintro ⟨fs', failed⟩
      rcases instantiate_error failed with ⟨_, refused | ⟨_, refused⟩⟩ | ⟨_, _, _, _, _, _, other⟩
      · simp [available] at refused
      · exact refused
      · simp at other
    · intro refused
      refine ⟨fs, bind_error_iff.2 (.inr ⟨(), fs, available, bind_error_iff.2 (.inl ?_)⟩)⟩
      exact Action.ofExcept_error_iff.2 ⟨refused, rfl⟩
  · have none : t.arguments.find? values.lacks = none :=
      List.find?_eq_none.2 fun a mem => by simp [given a mem]
    obtain ⟨resolved, done⟩ := Contract.exists_resolved_iff.2 none
    exact ⟨resolved, done, fun e mem s read => h.exists_render done mem read⟩

/-- The place of a project. -/
def packageRoot : Place := [.text "p".toList]

/-- A project with a file in a directory, which gets its mode last. The name of the directory
spells an argument without a default. -/
def package : FileSystem :=
  let inner : Place := .text "#\x7bpkg\x7d".toList :: packageRoot
  (((FileSystem.empty.put packageRoot (.directory 0o755)).put inner (.directory 0o755)).put
      (.text "#\x7bwho:you\x7d.txt".toList :: inner)
      (.file (.text "Hello, #\x7bwho\x7d!".toList) 0o640)).put inner (.directory 0o700)

/-- The entries that describe the project. -/
def packageEntries : List Entry :=
  [⟨"#\x7bpkg\x7d".toList, .directory, ".".toList, 0o700, none, []⟩,
    ⟨"#\x7bwho:you\x7d.txt".toList, .file, "#\x7bpkg\x7d".toList, 0o640,
      some "Hello, #\x7bwho\x7d!".toList, []⟩]

/-- The template of the project. -/
def packageTemplate : Template :=
  ⟨packageEntries.map Entry.withArgumentNames,
    [⟨"pkg".toList, none⟩, ⟨"who".toList, some "you".toList⟩]⟩

theorem isCaptured_package : packageTemplate.IsCaptured := by
  have project : IsProject package packageRoot := by decide +kernel
  have scanned : scan package [] (pathOf packageRoot) = .ok packageEntries := by
    rw [scan_pathOf project, Scan.visits_eq (by decide +kernel)]
    decide +kernel
  exact ⟨package, [], _, packageEntries, scanned, by decide +kernel⟩

/-- Without values the argument of the directory is missing; with one for it nothing is. -/
theorem instantiate_missing_iff_package :
    (∃ fs', instantiate packageTemplate "out".toList .empty package
        = .error (.missingArgument "pkg".toList) fs')
      ∧ ∃ resolved, packageTemplate.arguments.resolve (.insert .empty "pkg".toList "src".toList)
          = .ok resolved
        ∧ ∀ e ∈ packageTemplate.entries, ∀ s, e.Consults s →
          ∃ r, render (lookupValues (.insert .empty "pkg".toList "src".toList) resolved) s
            = .ok r := by
  obtain ⟨_, _, available⟩ : ∃ a fs, checkTarget "out".toList package = .ok a fs := by
    decide +kernel
  obtain ⟨rfl, _⟩ := checkTarget_ok available
  refine ⟨((instantiate_missing_iff isCaptured_package available).1 "pkg".toList).2
    (by decide +kernel), ?_⟩
  exact (instantiate_missing_iff isCaptured_package available).2 (by decide +kernel)

/-! ## Other values -/

theorem Instantiation.prepare_congr_valueOf (h : t.IsCaptured)
    (agree : ∀ a ∈ t.arguments, values.valueOf a = values'.valueOf a) :
    prepare t target values = prepare t target values' := by
  unfold prepare
  rw [Contract.resolve_congr agree]
  cases done : t.arguments.resolve values' with
  | error e => rfl
  | ok resolved =>
    have done' : t.arguments.resolve values = .ok resolved :=
      (Contract.resolve_congr agree).trans done
    have once := Contract.nodup_names_of_extract h.extract_eq
    have same : ∀ e ∈ t.entries, ∀ s, e.Consults s →
        render (lookupValues values resolved) s = render (lookupValues values' resolved) s := by
      intro e mem s read
      refine render_congr fun a spelled => ?_
      obtain ⟨b, there, named⟩ := List.mem_map.1 (h.mem_names mem read spelled)
      have known := Contract.get?_of_mem once there
      rw [← named, Contract.get?_lookupValues once done' known,
        Contract.get?_lookupValues once done known]
      exact Option.ext fun v => by rw [← Values.valueOf_ok_iff, agree b there, Values.valueOf_ok_iff]
    dsimp only
    rw [Plan.ofEntries_congr same]

theorem Instantiation.prepare_congr (h : t.IsCaptured)
    (agree : ∀ n ∈ t.arguments.names, values.get? n = values'.get? n) :
    prepare t target values = prepare t target values' :=
  prepare_congr_valueOf h fun a mem => Values.valueOf_congr (agree a.name (List.mem_map_of_mem mem))

/-- Values for names that the contract of a captured template does not have change nothing:
neither the answer of an instantiation nor the files it leaves, be the template stored and
read again or not. -/
theorem instantiate_congr (h : t.IsCaptured) (stored : t' = t ∨ Template.parse t.render = .ok t')
    (agree : ∀ n ∈ t.arguments.names, values.get? n = values'.get? n) (target : Path)
    (fs : FileSystem) : instantiate t' target values fs = instantiate t' target values' fs := by
  obtain rfl := h.eq_of_parse stored
  simp only [instantiate, prepare_congr h agree]

/-- A value for a name that no token of the project has changes nothing. -/
theorem instantiate_congr_package :
    ∃ report fs', instantiate packageTemplate "out".toList
        (.insert .empty "pkg".toList "src".toList) package = .ok report fs'
      ∧ instantiate packageTemplate "out".toList
        (.insert (.insert .empty "pkg".toList "src".toList) "other".toList "x".toList) package
        = .ok report fs' := by
  obtain ⟨report, fs', ok⟩ : ∃ report fs', instantiate packageTemplate "out".toList
      (.insert .empty "pkg".toList "src".toList) package = .ok report fs' := by
    decide +kernel
  have read : Template.parse packageTemplate.render = .ok packageTemplate :=
    Template.parse_render isCaptured_package.wellFormed
  have agree : ∀ n ∈ packageTemplate.arguments.names,
      (SortedMap.insert .empty "pkg".toList "src".toList : Values).get? n
        = (SortedMap.insert (.insert .empty "pkg".toList "src".toList) "other".toList "x".toList
          : Values).get? n := by
    decide +kernel
  exact ⟨report, fs', ok,
    (instantiate_congr isCaptured_package (.inr read) agree _ _).symm.trans ok⟩

end Scaffold
