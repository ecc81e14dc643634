import Scaffold.Proofs.Instantiation.Writing

/-!
# What an instantiation leaves alone

An instantiation must not damage what was there before. Whether it does is decided by
the directory that the target leads to once its missing ancestors have been made: if
nothing stood in that directory, every node from before is kept, and nothing lands in a
directory that held something. The check of the target looks at this directory only as
far as the target leads there already, so a target with `..` can pass it and then lead
to a directory that is not empty; so can the empty target.
-/

namespace Scaffold

open FileSystem FileAction Instantiation

variable {fs fs₁ fs' : FileSystem} {t : Template} {target : Path} {values : Values}
  {report : Report} {dir dest q : Place} {plan : List PlannedEntry}

/-- The directory to which a target leads, the empty one to where relative paths start. -/
def destination? (fs : FileSystem) (target : Path) : Option Place :=
  if target = [] then some fs.workDir else (locate fs .node target).toOption

/-- Nothing that was there before the call was damaged by it. -/
structure Harmless (target : Path) (dest : Place) (created : List Path) (fs fs' : FileSystem) :
    Prop where
  /-- Every file, directory and link is as it was, with its content and its mode. -/
  kept : ∀ q x, fs.get? q = some x → fs'.get? q = some x
  /-- A directory from before gained at most the target or an ancestor of it that was
  missing, unless it is the destination and was empty. -/
  gained : ∀ name dir x, fs.isDirectoryAt dir = true → fs.get? (name :: dir) = none →
    fs'.get? (name :: dir) = some x →
    (x.isDirectory = true ∧ ∃ a ∈ ancestors target, locate fs' .node a = .ok (name :: dir))
      ∨ dir = dest ∧ fs.childNames dest = []
  /-- No entry lands in a directory that held something, and none on its way from the target
  does. -/
  lands : ∀ names more, names ≠ [] → (∀ n ∈ names, IsStep n) →
    (names ++ more).foldl Path.join target ∈ created →
    ∀ name dir, locate fs' .entry (names.foldl Path.join target) = .ok (name :: dir) →
      fs.childNames dir = []

/-! ## The run of an instantiation -/

theorem checkTarget_ok (h : checkTarget target fs = .ok () fs') :
    fs' = fs ∧ (lookup fs target = .error .notFound
      ∨ ∃ place mode, lookup fs target = .ok (place, .directory mode)
        ∧ fs.childNames place = []) := by
  unfold checkTarget at h
  split at h
  · rename_i missing
    simp only [EStateM.Result.ok.injEq, true_and] at h
    exact ⟨h.symm, .inl missing⟩
  · simp at h
  · rename_i place mode found
    split at h
    · rename_i empty
      simp only [EStateM.Result.ok.injEq, true_and] at h
      exact ⟨h.symm, .inr ⟨place, mode, found, empty⟩⟩
    · simp at h
  · simp at h

theorem prepare_ok {resolved : Values} (h : prepare t target values = .ok (resolved, plan)) :
    Contract.resolve t.arguments values = .ok resolved
      ∧ Plan.ofEntries (lookupValues values resolved) target t.entries = .ok plan := by
  unfold prepare at h
  split at h
  · simp at h
  · rename_i found
    split at h
    · simp at h
    · rename_i made
      simp only [Except.ok.injEq, Prod.mk.injEq] at h
      obtain ⟨rfl, rfl⟩ := h
      exact ⟨found, made⟩

/-- The steps of an instantiation that gives a result. -/
theorem instantiate_ok (h : instantiate t target values fs = .ok report fs') :
    ∃ resolved plan fs₁ fs₂, checkTarget target fs = .ok () fs
      ∧ prepare t target values = .ok (resolved, plan)
      ∧ createDirectories target fs = .ok () fs₁ ∧ writeEntries plan fs₁ = .ok () fs₂
      ∧ setModes (directoriesBackwards plan) fs₂ = .ok () fs'
      ∧ report = ⟨target, plan.map PlannedEntry.path, resolved⟩ := by
  unfold instantiate at h
  obtain ⟨_, fs₀, checked, h⟩ := bind_ok_iff.1 h
  obtain ⟨⟨resolved, plan⟩, fs₁, planned, h⟩ := bind_ok_iff.1 h
  obtain ⟨_, fs₂, written, h⟩ := bind_ok_iff.1 h
  obtain ⟨rfl, rfl⟩ := pure_ok_iff.1 h
  obtain ⟨rfl, _⟩ := checkTarget_ok checked
  obtain ⟨prepared, same⟩ := Action.ofExcept_ok_iff.1 planned
  subst same
  obtain ⟨_, fs₃, made, written⟩ := bind_ok_iff.1 (run_ok_iff.1 written)
  obtain ⟨_, fs₄, entries, modes⟩ := bind_ok_iff.1 written
  exact ⟨resolved, plan, fs₃, fs₄, checked, prepared, made, entries, modes, rfl⟩

/-- Every part of a plan goes on behind the target. -/
theorem isBelow_of_prepare {resolved : Values} (h : prepare t target values = .ok (resolved, plan)) :
    ∀ p ∈ plan, p.IsBelow target := by
  intro p mem
  obtain ⟨e, _, made⟩ := Plan.exists_entry (prepare_ok h).2 mem
  obtain ⟨names, rendered, _, path, _⟩ := Plan.ofEntry_ok made
  obtain ⟨some, steps⟩ := Plan.isStep_of_renderNames rendered
  exact ⟨names, some, steps, path⟩

/-! ## Where the entries go -/

theorem refusal?_of_checkTarget (h : checkTarget target fs = .ok () fs') (some : target ≠ []) :
    refusal? target = none := by
  rcases (checkTarget_ok h).2 with missing | ⟨place, mode, found, _⟩
  · cases located : locate fs .node target with
    | ok place => exact refusal?_of_locate located
    | error why =>
      simp only [lookup, located, Except.error.injEq] at missing
      exact refusal?_of_notFound (missing ▸ located) some
  · exact refusal?_of_locate (locate_of_lookup found)

/-- A part can only be written if the directory from which its path starts is there. -/
private theorem start_of_writeEntry {p : PlannedEntry} (below : p.IsBelow [])
    (h : writeEntry p fs = .ok () fs') : fs.isDirectoryAt fs.workDir = true := by
  refine Bool.not_eq_false _ |>.mp fun noStart => ?_
  obtain ⟨names, some, steps, path⟩ := below
  have words : ∀ n ∈ names, Path.IsWord n := fun n mem => (steps n mem).word
  have relative : Path.isAbsolute p.path = false := by
    rw [path, Path.isAbsolute_foldl_join words]
    rfl
  have starts {fs : FileSystem} {c : Path} (relative : Path.isAbsolute c = false) :
      startOf fs.workDir c = fs.workDir := by
    rw [startOf, if_neg (by simp [relative])]
  have stuck {c : Path} {fs' : FileSystem} (relative : Path.isAbsolute c = false)
      (made : createDirectories c fs = .ok () fs') : fs' = fs := by
    rw [← after_ok made]
    refine after_createAll_of_no_start (fun a mem => ?_) noStart
    exact ((Path.chain_ancestors c).mem mem).1.trans relative
  cases kind : p.kind with
  | directory =>
    simp only [writeEntry, kind] at h
    have nonempty : Path.steps p.path ≠ [] := by
      rw [path, Path.steps_foldl_join words, filter_steps steps]
      simpa using some
    obtain ⟨_, dir, leads⟩ := leads_of_createDirectories h (ancestors_ne_nil_of_steps nonempty)
    obtain rfl := stuck relative h
    have start := leads.start
    rw [starts relative, noStart] at start
    simp at start
  | file =>
    simp only [writeEntry, kind] at h
    obtain ⟨_, _, made, h⟩ := bind_ok_iff.1 h
    obtain ⟨_, _, written, _⟩ := bind_ok_iff.1 h
    obtain ⟨before, last, q, rfl, parent, kind', _⟩ := exists_parent_names [] steps some
    rw [path, parent, Option.getD_some] at made
    obtain rfl := stuck (kind'.trans rfl) made
    have start := start_of_locate (writeFile_ok written).1
    rw [starts relative, noStart] at start
    simp at start

/-- Once the directories of a target are made, it leads to one. -/
theorem leads_target (made : createDirectories target fs = .ok () fs₁)
    (some : target ≠ []) : ∃ dir, Leads fs₁ target dir := by
  by_cases none : ancestors target = []
  · have steps : Path.steps target = [] := by
      refine Decidable.byContradiction fun some => ancestors_ne_nil_of_steps some none
    have absolute : Path.isAbsolute target = true := by
      refine Bool.not_eq_false _ |>.mp fun relative => Path.ancestors_ne_nil some relative none
    refine ⟨_, .start_of_steps_nil steps ?_⟩
    rw [startOf, if_pos absolute]
    exact isDirectoryAt_root fs₁
  · exact (leads_of_createDirectories made none).2

/-- Where a target leads to a directory, this is its destination. -/
theorem destination?_of_leads (leads : Leads fs target dest)
    (allowed : target ≠ [] → refusal? target = none) : destination? fs target = some dest := by
  unfold destination?
  split
  · rename_i empty
    subst empty
    obtain ⟨_, resolves⟩ := leads.resolves
    cases resolves with
    | arrive walks =>
      cases walks
      rfl
    | follow walks => cases walks
  · rename_i some
    rw [leads.locate_eq (allowed some)]
    rfl

/-! ## An empty destination -/

/-- What is new when the target is made, even if that is refused halfway, are directories on
the way to it. -/
theorem grown_target (target : Path) (fs : FileSystem) :
    Grown fs (after (createDirectories target) fs)
      ∧ ∀ q x, fs.get? q = none → (after (createDirectories target) fs).get? q = some x →
        ∃ a ∈ ancestors target, refusal? a = none
          ∧ Leads (after (createDirectories target) fs) a q :=
  grown_createAll (ancestors target) fs

/-- If the destination was empty, writing below it damages nothing. -/
private theorem harmless_of_confined (made : createDirectories target fs = .ok () fs₁)
    (leads : Leads fs₁ target dest) (empty : fs.childNames dest = [])
    (confined : Confined fs₁ fs' dest) :
    Harmless target dest (plan.map PlannedEntry.path) fs fs' := by
  obtain ⟨grown, new⟩ := after_ok made ▸ grown_target target fs
  have free : ∀ q, Below dest q → fs.get? q = none := fun q => get?_below_of_childNames empty
  refine ⟨fun q x found => ?_, fun name dir x dirs none found => ?_, ?_⟩
  · have outside : ¬ Below dest q := fun below => by simp [free q below] at found
    rw [confined.outside q outside, grown.kept q x found]
  · by_cases inside : Below dest (name :: dir)
    · right
      obtain ⟨names, some, eq⟩ := inside
      cases names with
      | nil => exact absurd rfl some
      | cons n names =>
        obtain ⟨rfl, rfl⟩ := List.cons.inj eq
        refine ⟨?_, empty⟩
        by_cases direct : names = []
        · rw [direct]
          rfl
        · simp [isDirectoryAt, free _ ⟨names, direct, rfl⟩] at dirs
    · left
      rw [confined.outside _ inside] at found
      obtain ⟨a, mem, allowed, made⟩ := new _ x none found
      exact ⟨grown.added _ x none found, a, mem,
        (made.preserved confined.preserved).locate_eq allowed⟩
  · intro names more some steps _ name dir located
    have place := (leads.preserved confined.preserved).locate_eq_placeOf confined.inside steps some
      located
    obtain ⟨before, last, rfl⟩ : ∃ before last, names = before ++ [last] :=
      ⟨names.dropLast, names.getLast some, (List.dropLast_concat_getLast some).symm⟩
    have here : dir = placeOf dest before := by
      simp only [placeOf, List.map_append, List.reverse_append] at place
      exact (List.cons.inj place).2
    by_cases direct : before = []
    · rw [here, direct, placeOf_nil, empty]
    · refine childNames_eq_nil ?_
      simp [isDirectoryAt, here, free _ (below_placeOf dest direct)]

/-- Making the target alone damages nothing. -/
private theorem harmless_of_plan_nil (made : createDirectories target fs = .ok () fs₁)
    {fs₂ : FileSystem} (written : writeEntries [] fs₁ = .ok () fs₂)
    (moded : setModes (directoriesBackwards []) fs₂ = .ok () fs') (dest : Place) :
    Harmless target dest [] fs fs' := by
  have same : fs₁ = fs' := by
    simp only [writeEntries, EStateM.Result.ok.injEq, true_and] at written
    simp only [directoriesBackwards, List.filter_nil, List.reverse_nil, setModes,
      EStateM.Result.ok.injEq, true_and] at moded
    exact written.trans moded
  subst same
  obtain ⟨grown, new⟩ := after_ok made ▸ grown_target target fs
  refine ⟨grown.kept, fun name dir x _ none found => .inl ?_, by simp⟩
  obtain ⟨a, mem, allowed, leads⟩ := new _ x none found
  exact ⟨grown.added _ x none found, a, mem, leads.locate_eq allowed⟩

/-- The first name of an entry stands in the destination itself. -/
private theorem locate_first {p : PlannedEntry} {name : Text} {more : List Text}
    (leads : Leads fs target dest) (here : Leads fs' target dest)
    (steps : ∀ n ∈ name :: more, IsStep n)
    (path : p.path = (name :: more).foldl Path.join target)
    (written : writeEntry p fs = .ok () fs₁) :
    locate fs' .entry (Path.join target name) = .ok (.text name :: dest) := by
  obtain ⟨allowed, fits⟩ := fits_of_writeEntry leads steps path written
  exact here.locate_join (steps name List.mem_cons_self) fits allowed

/-- A part of a plan was written in a state in which no path to a directory was lost. -/
theorem exists_write {p : PlannedEntry} (mem : p ∈ plan)
    (ok : writeEntries plan fs = .ok () fs') :
    ∃ before after, Preserved fs before ∧ writeEntry p before = .ok () after := by
  induction plan generalizing fs with
  | nil => simp at mem
  | cons first more ih =>
    obtain ⟨_, fs₂, written, others⟩ := bind_ok_iff.1 ok
    rcases List.mem_cons.1 mem with rfl | mem
    · exact ⟨fs, fs₂, .refl fs, written⟩
    · obtain ⟨before, after, kept, written'⟩ := ih mem others
      exact ⟨before, after, (preserved_writeEntry written).trans kept, written'⟩

/-! ## Every run -/

section

variable {resolved : Values} {fs₂ : FileSystem} (checked : checkTarget target fs = .ok () fs)
  (prepared : prepare t target values = .ok (resolved, plan))
  (made : createDirectories target fs = .ok () fs₁) (written : writeEntries plan fs₁ = .ok () fs₂)
  (moded : setModes (directoriesBackwards plan) fs₂ = .ok () fs')

include prepared made written in
/-- Unless nothing at all is written, the target leads to a directory once it is made. -/
theorem exists_leads (some : ¬ (plan = [] ∧ target = [])) :
    ∃ dest, Leads fs₁ target dest := by
  by_cases empty : target = []
  · subst empty
    cases plan with
    | nil => exact absurd ⟨rfl, rfl⟩ some
    | cons p more =>
      obtain ⟨_, _, first, _⟩ := bind_ok_iff.1 written
      have below := isBelow_of_prepare prepared p List.mem_cons_self
      exact ⟨_, .start_of_steps_nil rfl (start_of_writeEntry below first)⟩
  · exact leads_target made empty

include prepared written moded in
/-- Entries land in the destination, so it must have been empty if that was harmless. -/
private theorem childNames_of_harmless (leads : Leads fs₁ target dest)
    (harmless : Harmless target dest (plan.map PlannedEntry.path) fs fs')
    (entries : t.entries ≠ []) : fs.childNames dest = [] := by
  obtain ⟨e, mem⟩ := List.exists_mem_of_ne_nil _ entries
  obtain ⟨p, mem, part⟩ := Plan.exists_part (prepare_ok prepared).2 mem
  obtain ⟨names, rendered, _, path, _⟩ := Plan.ofEntry_ok part
  obtain ⟨some, steps⟩ := Plan.isStep_of_renderNames rendered
  obtain ⟨before, after, kept, writtenEntry⟩ := exists_write mem written
  have here := leads.preserved ((preserved_writeEntries written).trans (preserved_setModes moded))
  cases names with
  | nil => exact absurd rfl some
  | cons name more =>
    have first := locate_first (leads.preserved kept) here steps path writtenEntry
    refine harmless.lands [name] more (by simp) ?_ ?_ _ dest first
    · simpa using steps name List.mem_cons_self
    · rw [List.singleton_append, ← path]
      exact List.mem_map_of_mem mem

include prepared made written moded in
private theorem harmless_of_childNames (leads : Leads fs₁ target dest)
    (empty : fs.childNames dest = []) :
    Harmless target dest (plan.map PlannedEntry.path) fs fs' := by
  have grown : Grown fs fs₁ := after_ok made ▸ grown_createDirectories target fs
  have free : NoLinkBelow fs₁ dest := (noLinkBelow_of_childNames empty).grown grown
  have below := isBelow_of_prepare prepared
  have entries := (confined_writeEntries leads below).ok written (.refl free)
  have confined := (confined_setModes leads
    fun p mem => below p (List.mem_filter.1 (List.mem_reverse.1 mem)).1).ok moded entries
  exact harmless_of_confined made leads empty confined

include checked made in
/-- A target without `..` led to an empty directory, or to none. -/
theorem childNames_of_plain (leads : Leads fs₁ target dest) (some : target ≠ [])
    (noUp : ['.', '.'] ∉ Path.segments target) : fs.childNames dest = [] := by
  rcases createDirectories_fresh noUp made leads with rfl | ⟨free, _⟩
  · obtain ⟨mode, found⟩ := get?_of_isDirectoryAt leads.there
    have looked := leads.lookup_eq (refusal?_of_checkTarget checked some) found
    rcases (checkTarget_ok checked).2 with missing | ⟨place, _, found, empty⟩
    · simp [looked] at missing
    · rw [looked] at found
      simp only [Except.ok.injEq, Prod.mk.injEq] at found
      exact found.1 ▸ empty
  · exact childNames_eq_nil (by simp [isDirectoryAt, free])

end

/-- The contents of the destination decide whether anything that was there before can have
been damaged: nothing was if it was empty, and if it was not, the entries of the template
have landed among them. A target that is written without `..` and is not the empty one
always has an empty destination. -/
theorem instantiate_harmless_iff (h : instantiate t target values fs = .ok report fs') :
    ∃ dest, destination? fs' target = some dest
      ∧ (Harmless target dest report.created fs fs'
        ↔ fs.childNames dest = [] ∨ t.entries = [])
      ∧ (target ≠ [] → ['.', '.'] ∉ Path.segments target → fs.childNames dest = []) := by
  obtain ⟨resolved, plan, fs₁, fs₂, checked, prepared, made, written, moded, rfl⟩ :=
    instantiate_ok h
  have planned := (prepare_ok prepared).2
  have nothing (none : plan = []) (dest : Place) :
      Harmless target dest (plan.map PlannedEntry.path) fs fs' := by
    subst none
    exact harmless_of_plan_nil made written moded dest
  by_cases trivial : plan = [] ∧ target = []
  · obtain ⟨none, rfl⟩ := trivial
    have entries : t.entries = [] := by
      simpa [none] using Plan.ofEntries_ok_iff.1 planned
    exact ⟨fs'.workDir, rfl, iff_of_true (nothing none _) (.inr entries),
      fun some => absurd rfl some⟩
  obtain ⟨dest, leads⟩ := exists_leads prepared made written trivial
  have here := leads.preserved ((preserved_writeEntries written).trans (preserved_setModes moded))
  refine ⟨dest, destination?_of_leads here (refusal?_of_checkTarget checked), ?_,
    childNames_of_plain checked made leads⟩
  constructor
  · intro harmless
    by_cases entries : t.entries = []
    · exact .inr entries
    · exact .inl (childNames_of_harmless prepared written moded leads harmless entries)
  · rintro (empty | entries)
    · exact harmless_of_childNames prepared made written moded leads empty
    · refine nothing ?_ dest
      rw [entries] at planned
      exact (Except.ok.inj planned).symm

/-- A working directory with one file. -/
def keptFile : FileSystem :=
  FileSystem.empty.put [.text "keep.txt".toList] (.file (.text "mine".toList) 0o644)

/-- A template with one file of the same name. -/
def takenName : Template :=
  ⟨[⟨"keep.txt".toList, .file, ".".toList, 0o644, some "theirs".toList, []⟩], []⟩

theorem instantiate_harmless_iff_new :
    ∃ report fs', instantiate takenName "new".toList .empty keptFile = .ok report fs'
      ∧ ∃ dest, destination? fs' "new".toList = some dest
      ∧ (Harmless "new".toList dest report.created keptFile fs'
        ↔ keptFile.childNames dest = [] ∨ takenName.entries = [])
      ∧ ("new".toList ≠ [] → ['.', '.'] ∉ Path.segments "new".toList →
        keptFile.childNames dest = []) := by
  obtain ⟨report, fs', ok⟩ : ∃ report fs',
      instantiate takenName "new".toList .empty keptFile = .ok report fs' := by
    decide +kernel
  exact ⟨report, fs', ok, instantiate_harmless_iff ok⟩

/-- The file in the working directory is lost to a template that is written to `new/..`. -/
theorem exists_instantiate_not_harmless :
    ∃ report fs', instantiate takenName "new/..".toList .empty keptFile = .ok report fs'
      ∧ keptFile.get? [.text "keep.txt".toList] = some (.file (.text "mine".toList) 0o644)
      ∧ fs'.get? [.text "keep.txt".toList] = some (.file (.text "theirs".toList) 0o644)
      ∧ ∀ dest, ¬ Harmless "new/..".toList dest report.created keptFile fs' := by
  have before : keptFile.get? [.text "keep.txt".toList] = some (.file (.text "mine".toList) 0o644) := by
    decide +kernel
  obtain ⟨report, fs', ok, lost⟩ : ∃ report fs',
      instantiate takenName "new/..".toList .empty keptFile = .ok report fs'
      ∧ fs'.get? [.text "keep.txt".toList] = some (.file (.text "theirs".toList) 0o644) := by
    decide +kernel
  refine ⟨report, fs', ok, before, lost, fun dest harmless => ?_⟩
  rw [harmless.kept _ _ before] at lost
  simp at lost

end Scaffold
