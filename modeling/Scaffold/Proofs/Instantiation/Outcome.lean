import Mathlib.Data.List.Pairwise
import Scaffold.Proofs.Instantiation.Tree

/-!
# When an instantiation succeeds

The parts of a plan are written in order, then the directories among them get their modes,
the last one first. The order makes no difference, for no two parts have one place. So an
instantiation into a free target gives a result if its entries can be rendered and stand
beside each other, and the tree below the target then is the one that the entries say.
-/

namespace Scaffold

namespace Instantiation

open FileAction FileSystem

variable {fs fs' fs₁ : FileSystem} {target : Path} {start dest : Place} {names : List Text}
  {p : PlannedEntry} {plan dirs : List PlannedEntry} {t : Template} {e : Entry}
  {entries : List Entry} {values resolved : Values}

/-! ## Modes -/

/-- How the file system looks when some directories have been given their modes. -/
structure Moded (target : Path) (dest : Place) (dirs : List PlannedEntry) (fs fs' : FileSystem) :
    Prop where
  modes : ∀ p ∈ dirs, ∀ ns, p.IsAt target ns →
    fs'.get? (placeOf dest ns) = some (.directory p.mode)
  other : ∀ q, (∀ p ∈ dirs, ∀ ns, p.IsAt target ns → q ≠ placeOf dest ns) →
    fs'.get? q = fs.get? q
  workDir : fs'.workDir = fs.workDir

private theorem lookup_directory (leads : Leads fs target dest) (here : p.FitsAt target names)
    (there : fs.isDirectoryAt (placeOf dest names) = true) :
    ∃ mode, lookup fs p.path = .ok (placeOf dest names, .directory mode) := by
  obtain ⟨mode, found⟩ := get?_of_isDirectoryAt there
  have paved := (paved_of_isDirectoryAt there).mono (List.dropLast_prefix names)
  have located := locate_part leads here paved (by simp [found]) .node
  exact ⟨mode, by simp only [lookup, located, found]⟩

/-- Directories that are there can be given their modes, in whatever order. -/
theorem exists_setModes (leads : Leads fs target dest)
    (parts : ∀ p ∈ dirs, ∃ ns, p.FitsAt target ns ∧ fs.isDirectoryAt (placeOf dest ns) = true)
    (distinct : dirs.Pairwise fun p q => p.path ≠ q.path) :
    ∃ fs', setModes dirs fs = .ok () fs' ∧ Moded target dest dirs fs fs' := by
  induction dirs generalizing fs with
  | nil => exact ⟨fs, rfl, by simp, fun _ _ => rfl, rfl⟩
  | cons p more ih =>
    obtain ⟨names, here, there⟩ := parts p List.mem_cons_self
    obtain ⟨mode, looked⟩ := lookup_directory leads here there
    obtain ⟨fs₂, set, put⟩ := setMode_of_lookup p.mode looked
    have kept := preserved_setMode set
    obtain ⟨fs', others, moded⟩ := ih (leads.preserved kept)
      (fun q mem => by
        obtain ⟨ns, at', dir⟩ := parts q (List.mem_cons_of_mem _ mem)
        exact ⟨ns, at', kept.dirs _ dir⟩)
      (List.pairwise_cons.1 distinct).2
    have away : ∀ q ∈ more, ∀ ns, q.IsAt target ns → placeOf dest names ≠ placeOf dest ns := by
      intro q mem ns at' same
      obtain rfl := placeOf_inj same
      exact (List.pairwise_cons.1 distinct).1 q mem (here.path.trans at'.path.symm)
    refine ⟨fs', bind_ok_iff.2 ⟨(), fs₂, set, others⟩, fun q mem ns at' => ?_, fun q apart => ?_,
      moded.workDir.trans put.workDir⟩
    · rcases List.mem_cons.1 mem with rfl | mem
      · obtain rfl := at'.unique here.toIsAt
        rw [moded.other _ away, put.self]
        rfl
      · exact moded.modes q mem ns at'
    · rw [moded.other q fun p' mem => apart p' (List.mem_cons_of_mem _ mem),
        put.other (apart p List.mem_cons_self names here.toIsAt)]

/-! ## Entries and parts -/

/-- The entries can be rendered, with names and paths that are not too long, and their
paths can stand beside each other: no two are the same, and none goes on behind a file. -/
structure Fits (values : Values) (target : Path) (entries : List Entry) : Prop where
  renders : ∀ e ∈ entries, ∃ names content, Plan.renderNames values e = .ok names
    ∧ Plan.renderContent values e = .ok content
    ∧ (∀ n ∈ names, Text.fits maxNameLength n = true)
    ∧ Text.fits maxPathLength (names.foldl Path.join target) = true
  distinct : entries.Pairwise fun e e' => Plan.renderNames values e ≠ Plan.renderNames values e'
  leaves : ∀ e ∈ entries, ∀ e' ∈ entries, e.kind = .file → ∀ names more,
    Plan.renderNames values e = .ok names → Plan.renderNames values e' = .ok (names ++ more) →
    more = []

/-- An entry and its part have the same names. -/
theorem isAt_of_ofEntry (h : Plan.ofEntry values target e = .ok p) :
    ∃ names, Plan.renderNames values e = .ok names ∧ p.IsAt target names := by
  obtain ⟨names, rendered, _, path, _⟩ := Plan.ofEntry_ok h
  obtain ⟨some, steps⟩ := Plan.isStep_of_renderNames rendered
  exact ⟨names, rendered, some, steps, path⟩

theorem isAt_of_rendered (h : Plan.ofEntry values target e = .ok p)
    (rendered : Plan.renderNames values e = .ok names) : p.IsAt target names := by
  obtain ⟨names', rendered', here⟩ := isAt_of_ofEntry h
  rwa [Except.ok.inj (rendered.symm.trans rendered')]

theorem renderNames_of_isAt (h : Plan.ofEntry values target e = .ok p)
    (here : p.IsAt target names) : Plan.renderNames values e = .ok names := by
  obtain ⟨names', rendered, here'⟩ := isAt_of_ofEntry h
  rw [rendered, here'.unique here]

/-- Every part of a plan is planned at some names. -/
theorem exists_isAt (planned : Plan.ofEntries values target entries = .ok plan) :
    ∀ p ∈ plan, ∃ names, p.IsAt target names := by
  intro p mem
  obtain ⟨e, _, part⟩ := Plan.exists_entry planned mem
  obtain ⟨names, _, here⟩ := isAt_of_ofEntry part
  exact ⟨names, here⟩

theorem Fits.exists_plan (h : Fits values target entries) :
    ∃ plan, Plan.ofEntries values target entries = .ok plan := by
  have made : ∀ e ∈ entries, ∃ p, Plan.ofEntry values target e = .ok p := by
    intro e mem
    obtain ⟨names, content, rendered, written, _⟩ := h.renders e mem
    refine ⟨⟨names.foldl Path.join target, e.kind, e.mode, content⟩, ?_⟩
    simp only [Plan.ofEntry, rendered, written]
  clear h
  induction entries with
  | nil => exact ⟨[], rfl⟩
  | cons e more ih =>
    obtain ⟨p, first⟩ := made e List.mem_cons_self
    obtain ⟨plan, others⟩ := ih fun e mem => made e (List.mem_cons_of_mem _ mem)
    exact ⟨p :: plan, by simp only [Plan.ofEntries, first, others]⟩

private theorem above_of_fits (h : Fits values target entries) {e' : Entry} {q : PlannedEntry}
    (mem : e ∈ entries) (mem' : e' ∈ entries)
    (distinct : Plan.renderNames values e ≠ Plan.renderNames values e')
    (part : Plan.ofEntry values target e = .ok p) (part' : Plan.ofEntry values target e' = .ok q)
    {ns more : List Text} (here : p.IsAt target ns) (behind : q.IsAt target (ns ++ more)) :
    p.kind = .directory ∧ more ≠ [] := by
  have rendered := renderNames_of_isAt part here
  have rendered' := renderNames_of_isAt part' behind
  have deeper : more ≠ [] := by
    rintro rfl
    rw [List.append_nil] at rendered'
    exact distinct (rendered.trans rendered'.symm)
  refine ⟨?_, deeper⟩
  cases kind : p.kind with
  | directory => rfl
  | file =>
    obtain ⟨_, _, _, _, same, _⟩ := Plan.ofEntry_ok part
    exact absurd (h.leaves e mem e' mem' (same ▸ kind) ns more rendered rendered') deeper

/-- The parts of a plan stand apart from each other. -/
theorem Fits.apart (h : Fits values target entries)
    (planned : Plan.ofEntries values target entries = .ok plan) :
    plan.Pairwise (PlannedEntry.Apart target) := by
  have pairs : (plan.map Except.ok).Pairwise fun x y : Except Error PlannedEntry =>
      ∀ p q, x = .ok p → y = .ok q → PlannedEntry.Apart target p q := by
    rw [← Plan.ofEntries_ok_iff.1 planned, List.pairwise_map]
    refine h.distinct.imp_of_mem fun mem mem' distinct p q part part' ns more => ?_
    exact ⟨above_of_fits h mem mem' distinct part part',
      above_of_fits h mem' mem distinct.symm part' part⟩
  exact (List.pairwise_map.1 pairs).imp fun apart => apart _ _ rfl rfl

theorem Fits.exists_fitsAt (h : Fits values target entries) (allowed : refusal? target = none)
    (mem : e ∈ entries) (part : Plan.ofEntry values target e = .ok p) :
    ∃ names, p.FitsAt target names := by
  obtain ⟨names, rendered, here⟩ := isAt_of_ofEntry part
  obtain ⟨names', _, rendered', _, fits, short⟩ := h.renders e mem
  obtain rfl := Except.ok.inj (rendered.symm.trans rendered')
  exact ⟨names, here, here.refusal?_eq allowed (here.path ▸ short), fits⟩

/-! ## The target -/

/-- The target has nothing but names, no file and no link stands on the way to it, and at
its end stands an empty directory or nothing. -/
structure IsFree (fs : FileSystem) (target : Path) : Prop where
  named : Named target
  start : fs.isDirectoryAt (startOf fs.workDir target) = true
  clear : Clear fs (startOf fs.workDir target) (Path.steps target)
  empty : fs.childNames (placeOf (startOf fs.workDir target) (Path.steps target)) = []

theorem IsFree.checkTarget_eq (h : IsFree fs target) : checkTarget target fs = .ok () fs := by
  rcases h.clear.lookup_cases h.named h.start with ⟨mode, looked⟩ | missing
  · simp only [checkTarget, looked, h.empty, if_true]
  · simp only [checkTarget, missing]

/-- Making a free target leaves nothing below it. -/
theorem IsFree.exists_ready (h : IsFree fs target) : ∃ fs₁, createDirectories target fs = .ok () fs₁
    ∧ Made fs (startOf fs.workDir target) (Path.steps target) fs₁
    ∧ Ready fs₁ target (placeOf (startOf fs.workDir target) (Path.steps target)) := by
  obtain ⟨fs₁, ok, made⟩ := createDirectories_of_clear (fun a => h.named.of_mem_ancestors) h.start
    h.clear
  have leads : Leads fs₁ target (placeOf (startOf fs.workDir target) (Path.steps target)) := by
    have paved := made.paved h.clear
    rw [← made.workDir] at paved ⊢
    exact paved.leads h.named.steps
  refine ⟨fs₁, ok, made, h.named.allowed, leads, fun q below => ?_⟩
  rw [made.kept q, get?_below_of_childNames h.empty below]
  rintro _ ns part rfl
  exact not_below_placeOf part below

/-! ## The whole tree -/

/-- The tree below `dest` in `fs'` is the one that the entries say, where `fs` is the file
system in which the directories that are no entries were made. Names and contents are the
rendered ones, as in `Plan.renderNames_ok_iff`, `Plan.renderContent_of_file` and
`Plan.renderContent_of_none`. -/
structure Holds (values : Values) (entries : List Entry) (dest : Place) (fs fs' : FileSystem) :
    Prop where
  /-- Every file has its rendered content and its mode. -/
  files : ∀ e ∈ entries, e.kind = .file → ∀ names content, Plan.renderNames values e = .ok names →
    Plan.renderContent values e = .ok content →
    fs'.get? (placeOf dest names) = some (.file (.text content) e.mode)
  /-- Every directory has its mode. -/
  directories : ∀ e ∈ entries, e.kind = .directory → ∀ names, Plan.renderNames values e = .ok names →
    fs'.get? (placeOf dest names) = some (.directory e.mode)
  /-- What is on the way to an entry and is none itself is a plain directory. -/
  between : ∀ e ∈ entries, ∀ names more, names ≠ [] →
    Plan.renderNames values e = .ok (names ++ more) →
    (∀ e' ∈ entries, Plan.renderNames values e' ≠ .ok names) →
    fs'.get? (placeOf dest names) = some (.directory (plainMode fs (placeOf dest names)))
  /-- Nothing else is there. -/
  only : ∀ q x, Below dest q → fs'.get? q = some x → ∃ e ∈ entries, ∃ names more, names ≠ []
    ∧ Plan.renderNames values e = .ok (names ++ more) ∧ q = placeOf dest names

theorem mem_directoriesBackwards :
    p ∈ directoriesBackwards plan ↔ p ∈ plan ∧ p.kind = .directory := by
  simp [directoriesBackwards]

/-- What is planned for an entry stands at the entry's names, with its kind and its mode. -/
theorem exists_planned (planned : Plan.ofEntries values target entries = .ok plan)
    (mem : e ∈ entries) (rendered : Plan.renderNames values e = .ok names) :
    ∃ p ∈ plan, p.IsAt target names ∧ Plan.renderContent values e = .ok p.content
      ∧ p.kind = e.kind ∧ p.mode = e.mode := by
  obtain ⟨p, inPlan, part⟩ := Plan.exists_part planned mem
  obtain ⟨_, _, content, _, kind, mode⟩ := Plan.ofEntry_ok part
  exact ⟨p, inPlan, isAt_of_rendered part rendered, content, kind, mode⟩

/-- What is planned at some names is planned for an entry of these names. -/
theorem exists_rendered (planned : Plan.ofEntries values target entries = .ok plan)
    (inPlan : p ∈ plan) (here : p.IsAt target names) :
    ∃ e ∈ entries, Plan.renderNames values e = .ok names := by
  obtain ⟨e, mem, part⟩ := Plan.exists_entry planned inPlan
  exact ⟨e, mem, renderNames_of_isAt part here⟩

theorem holds_of_built {fs₂ : FileSystem} (planned : Plan.ofEntries values target entries = .ok plan)
    (apart : plan.Pairwise (PlannedEntry.Apart target)) (built : Built fs₁ target dest plan fs₂)
    (moded : Moded target dest (directoriesBackwards plan) fs₂ fs') :
    Holds values entries dest fs₁ fs' := by
  refine ⟨fun e mem kind names content rendered written => ?_,
    fun e mem kind names rendered => ?_, fun e mem names more some rendered none => ?_,
    fun q x below found => ?_⟩
  · obtain ⟨p, inPlan, here, written', sameKind, sameMode⟩ := exists_planned planned mem rendered
    obtain rfl := Except.ok.inj (written.symm.trans written')
    rw [moded.other, built.files p inPlan names here (sameKind.trans kind), sameMode]
    intro q isDir ns at' eq
    obtain rfl := placeOf_inj eq
    obtain ⟨inPlan', kind'⟩ := mem_directoriesBackwards.1 isDir
    have differ : p ≠ q := by
      rintro rfl
      simp [sameKind.trans kind] at kind'
    have aside := apart.forall inPlan inPlan' differ names []
    rw [List.append_nil] at aside
    simpa [sameKind.trans kind] using (aside.1 here at').1
  · obtain ⟨p, inPlan, here, _, sameKind, sameMode⟩ := exists_planned planned mem rendered
    rw [← sameMode]
    exact moded.modes p (mem_directoriesBackwards.2 ⟨inPlan, sameKind.trans kind⟩) names here
  · obtain ⟨p, inPlan, here, _⟩ := exists_planned planned mem rendered
    have deeper : more = [] → p.kind = .directory := by
      rintro rfl
      rw [List.append_nil] at rendered
      exact absurd rendered (none e mem)
    rw [moded.other, built.directories p inPlan names more here some deeper]
    intro q isDir ns at' eq
    obtain rfl := placeOf_inj eq
    obtain ⟨e', mem', rendered'⟩ := exists_rendered planned (mem_directoriesBackwards.1 isDir).1 at'
    exact none e' mem' rendered'
  · by_cases isDir : ∃ p ∈ directoriesBackwards plan, ∃ ns, p.IsAt target ns ∧ q = placeOf dest ns
    · obtain ⟨p, isDir, ns, here, eq⟩ := isDir
      obtain ⟨e, mem, rendered⟩ := exists_rendered planned (mem_directoriesBackwards.1 isDir).1 here
      exact ⟨e, mem, ns, [], here.some, by simpa using rendered, eq⟩
    · rw [moded.other q fun p mem ns here eq => isDir ⟨p, mem, ns, here, eq⟩] at found
      obtain ⟨p, inPlan, ns, more, here, some, eq⟩ := built.only q x below found
      obtain ⟨e, mem, rendered⟩ := exists_rendered planned inPlan here
      exact ⟨e, mem, ns, more, some, rendered, eq⟩

/-- Into a target that passes the check and, once it is made, leads to a directory with
nothing below, a template is written as its entries say. -/
theorem instantiate_ready (checked : checkTarget target fs = .ok () fs)
    (made : createDirectories target fs = .ok () fs₁) (ready : Ready fs₁ target dest)
    (contract : Contract.resolve t.arguments values = .ok resolved)
    (fits : Fits (lookupValues values resolved) target t.entries) :
    ∃ report fs', instantiate t target values fs = .ok report fs'
      ∧ locate fs' .node target = .ok dest
      ∧ Holds (lookupValues values resolved) t.entries dest fs₁ fs' := by
  obtain ⟨plan, planned⟩ := fits.exists_plan
  have apart := fits.apart planned
  have parts : ∀ p ∈ plan, ∃ names, p.FitsAt target names := by
    intro p inPlan
    obtain ⟨e, mem, part⟩ := Plan.exists_entry planned inPlan
    exact fits.exists_fitsAt ready.allowed mem part
  obtain ⟨fs₂, written, built, leads⟩ :=
    exists_writeEntries ready (built_nil ready.empty) ready.leads parts apart
  rw [List.nil_append] at built
  have moves : ∀ p ∈ directoriesBackwards plan, ∃ ns, p.FitsAt target ns
      ∧ fs₂.isDirectoryAt (placeOf dest ns) = true := by
    intro p isDir
    obtain ⟨inPlan, kind⟩ := mem_directoriesBackwards.1 isDir
    obtain ⟨names, at'⟩ := parts p inPlan
    have dir := built.directories p inPlan names [] (by simpa using at'.toIsAt) at'.some
      fun _ => kind
    exact ⟨names, at', isDirectoryAt_of_get? dir⟩
  have distinct : (directoriesBackwards plan).Pairwise fun p q => p.path ≠ q.path := by
    refine List.pairwise_reverse.2 (List.Pairwise.filter _ (apart.imp_of_mem ?_))
    intro p q inPlan _ apart
    obtain ⟨names, at'⟩ := parts p inPlan
    exact (apart.path_ne at'.toIsAt).symm
  obtain ⟨fs', moding, moded⟩ := exists_setModes leads moves distinct
  have prepared : prepare t target values = .ok (resolved, plan) := by
    simp only [prepare, contract, planned]
  refine ⟨⟨target, plan.map PlannedEntry.path, resolved⟩, fs', ?_,
    (leads.preserved (preserved_setModes moding)).locate_eq ready.allowed,
    holds_of_built planned apart built moded⟩
  refine bind_ok_iff.2 ⟨(), fs, checked, ?_⟩
  refine bind_ok_iff.2 ⟨(resolved, plan), fs, Action.ofExcept_ok_iff.2 ⟨prepared, rfl⟩, ?_⟩
  refine bind_ok_iff.2 ⟨(), fs', run_ok_iff.2 ?_, pure_ok_iff.2 ⟨rfl, rfl⟩⟩
  exact bind_ok_iff.2 ⟨(), fs₁, made, bind_ok_iff.2 ⟨(), fs₂, written, moding⟩⟩

/-- Into a free target a template is written as its entries say. -/
theorem instantiate_holds (free : IsFree fs target)
    (contract : Contract.resolve t.arguments values = .ok resolved)
    (fits : Fits (lookupValues values resolved) target t.entries) :
    ∃ report fs' dest, instantiate t target values fs = .ok report fs'
      ∧ dest = placeOf (startOf fs.workDir target) (Path.steps target)
      ∧ locate fs' .node target = .ok dest
      ∧ Holds (lookupValues values resolved) t.entries dest fs fs' := by
  obtain ⟨fs₁, made, making, ready⟩ := free.exists_ready
  obtain ⟨report, fs', ok, located, holds⟩ :=
    instantiate_ready free.checkTarget_eq made ready contract fits
  refine ⟨report, fs', _, ok, rfl, located, holds.files, holds.directories, ?_, holds.only⟩
  intro e mem names more some rendered none
  rw [← making.plainMode_eq]
  exact holds.between e mem names more some rendered none

/-- A file that comes before the directory that it is in. -/
def nestedFile : Entry :=
  ⟨"a.txt".toList, .file, "src/lib".toList, 0o600, some "x".toList, []⟩

/-- The directory of `nestedFile`. -/
def outerDirectory : Entry := ⟨"src".toList, .directory, ".".toList, 0o700, none, []⟩

theorem instantiate_holds_nestedFile :
    ∃ report fs' dest,
      instantiate ⟨[nestedFile, outerDirectory], []⟩ "new".toList .empty keptFile = .ok report fs'
      ∧ dest = placeOf (startOf keptFile.workDir "new".toList) (Path.steps "new".toList)
      ∧ locate fs' .node "new".toList = .ok dest
      ∧ Holds (lookupValues .empty .empty) [nestedFile, outerDirectory] dest keptFile fs' := by
  have free : IsFree keptFile "new".toList := by
    refine ⟨⟨by decide, fun s mem => ?_⟩, by decide, fun ns part => ?_, by decide +kernel⟩
    · obtain rfl : s = "new".toList := by simpa [Path.segments, Text.split] using mem
      exact .inr ⟨by decide, by decide, by decide⟩
    · have steps : Path.steps "new".toList = ["new".toList] := by decide
      rw [steps, List.prefix_cons_iff] at part
      rcases part with rfl | ⟨ns, rfl, part⟩
      · exact .inr (by decide)
      · rw [List.prefix_nil.1 part]
        exact .inl (by decide +kernel)
  have file : Plan.renderNames (lookupValues .empty .empty) nestedFile
      = .ok ["src".toList, "lib".toList, "a.txt".toList] := by
    cbv
  have directory : Plan.renderNames (lookupValues .empty .empty) outerDirectory
      = .ok ["src".toList] := by
    cbv
  have fits : Fits (lookupValues .empty .empty) "new".toList [nestedFile, outerDirectory] := by
    refine ⟨fun e mem => ?_, ?_, fun e mem e' mem' kind names more rendered behind => ?_⟩
    · rcases List.mem_pair.1 mem with rfl | rfl
      · exact ⟨_, "x".toList, file, by cbv, by decide, by decide⟩
      · exact ⟨_, [], directory, rfl, by decide, by decide⟩
    · simp [file, directory]
    · rcases List.mem_pair.1 mem with rfl | rfl
      · obtain rfl := Except.ok.inj (file.symm.trans rendered)
        rcases List.mem_pair.1 mem' with rfl | rfl
        · simpa [file] using behind
        · simp [directory] at behind
      · simp [outerDirectory] at kind
  exact instantiate_holds free rfl fits

end Instantiation

end Scaffold
