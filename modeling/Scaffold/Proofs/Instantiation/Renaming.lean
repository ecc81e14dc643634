import Scaffold.Proofs.Capture.Captured

/-!
# The renamed tree

An instantiation renames the tree that a template lists. The parent path of an entry is
rendered name by name, but each of its names is that of a directory entry, so an entry comes
to be in the directory that was made for the entry of its parent path, which was made
before. And whatever directory is made behind the target is one that the template lists,
although files have the missing directories on the way to them made silently.
-/

namespace Scaffold

open FileSystem

/-! ## Rendered names -/

section

variable {placed : List (List Name × Entry)} {names above : List Name} {e d : Entry}
  {values : Values} {ns front back : List Text}

/-- An entry is rendered to the names that lead to it, each rendered for itself. -/
theorem IsWithin.renderNames_ok_iff (h : IsWithin placed above e) :
    Plan.renderNames values e = .ok ns
      ↔ (texts (.text e.name :: above)).map (Plan.renderComponent values) = ns.map .ok := by
  have parts : (Path.components e.parent).filter (· ≠ .here) = (texts above).map .name :=
    h.parent ▸ withoutDots_parentPath h.steps
  rw [Plan.renderNames_ok_iff, texts_cons, parts]
  simp only [List.map_inj_right fun _ _ => Path.Component.name.inj, exists_eq_left']

/-- An entry in a directory is rendered to the names of the directory and its own. -/
theorem Nested.renderNames_ok_iff (h : Nested placed) (within : IsWithin placed above e)
    (mem : (above, d) ∈ placed) : Plan.renderNames values e = .ok ns
      ↔ ∃ parents name, Plan.renderNames values d = .ok parents
        ∧ Plan.renderComponent values e.name = .ok name ∧ ns = parents ++ [name] := by
  obtain ⟨_, rfl, outer⟩ := h.exists_isWithin mem
  rw [within.renderNames_ok_iff, texts_cons, Plan.map_concat_ok_iff]
  simp only [outer.renderNames_ok_iff]

/-- On the way to an entry there are only directory entries. -/
theorem Nested.exists_rendered (h : Nested placed) (mem : (names, e) ∈ placed)
    (rendered : Plan.renderNames values e = .ok (front ++ back)) (some : front ≠ [])
    (inner : back = [] → e.kind = .directory) :
    ∃ d ∈ placed.map Prod.snd, d.kind = .directory ∧ Plan.renderNames values d = .ok front := by
  induction back using List.reverseRecOn generalizing names e with
  | nil =>
    rw [List.append_nil] at rendered
    exact ⟨e, List.mem_map_of_mem mem, inner rfl, rendered⟩
  | append_singleton back last ih =>
    obtain ⟨above, rfl, within⟩ := h.exists_isWithin mem
    rcases within.inside with rfl | ⟨d, there, kind⟩
    · -- at the root there is one name, which is all of the front
      rw [within.renderNames_ok_iff, texts_cons, Plan.map_concat_ok_iff] at rendered
      obtain ⟨parents, name, none, _, same⟩ := rendered
      obtain rfl : parents = [] := List.map_eq_nil_iff.1 none.symm
      rw [← List.append_assoc] at same
      have empty := (List.append_inj' same rfl).1
      exact absurd (List.append_eq_nil_iff.1 empty).1 some
    · obtain ⟨parents, name, outer, _, same⟩ := (h.renderNames_ok_iff within there).1 rendered
      rw [← List.append_assoc] at same
      obtain ⟨rfl, _⟩ := List.append_inj' same rfl
      exact ih there outer fun _ => kind

end

/-! ## Directories that are made -/

namespace Instantiation

open FileAction

variable {fs fs' fs₁ fs₂ : FileSystem} {target c path : Path} {dest q : Place}
  {names ns : List Text} {p : PlannedEntry} {plan : List PlannedEntry}

/-- The path takes these steps behind the target. -/
structure Continues (target : Path) (ns : List Text) (path : Path) : Prop where
  kind : Path.isAbsolute path = Path.isAbsolute target
  steps : Path.steps path = Path.steps target ++ ns

theorem continues_path (here : p.IsAt target names) : Continues target names p.path :=
  ⟨here.isAbsolute_path, here.steps_path⟩

/-- A directory that is made behind the target is on the way that is to be made. -/
theorem exists_continues_of_made (leads : Leads fs target dest) (along : Continues target names c)
    (old : fs.isDirectoryAt q = false)
    (new : (after (createDirectories c) fs).isDirectoryAt q = true) :
    ∃ ns path, ns ≠ [] ∧ ns <+: names ∧ Continues target ns path
      ∧ Leads (after (createDirectories c) fs) path q := by
  obtain ⟨grown, made⟩ := grown_createAll (ancestors c) fs
  obtain ⟨mode, found⟩ := get?_of_isDirectoryAt new
  have free : fs.get? q = none := by
    by_contra there
    obtain ⟨x, there⟩ := Option.ne_none_iff_exists'.1 there
    have same := (grown.kept q x there).symm.trans found
    obtain rfl := Option.some.inj same
    simp [isDirectoryAt_of_get? there] at old
  obtain ⟨path, mem, _, here⟩ := made q _ free found
  have kind := ((Path.chain_ancestors c).mem mem).1
  -- a path on the way to the target leads to a directory that was there before
  have notAbove : ¬ Path.steps path <+: Path.steps target := by
    rintro ⟨more, front⟩
    obtain ⟨dir, above⟩ := leads.front (kind.trans along.kind) front.symm
    obtain rfl := here.unique (above.preserved grown.preserved)
    simp [above.there] at old
  obtain ⟨more, some, part, behind⟩ := Path.exists_steps_behind along.steps mem notAbove
  exact ⟨more, path, some, part, ⟨kind.trans along.kind, behind⟩, here⟩

/-- No directory is made with a file. -/
theorem isDirectoryAt_of_writeFile {content : Octets} {place : Place}
    (ok : writeFile path content fs = .ok place fs') (dir : fs'.isDirectoryAt q = true) :
    fs.isDirectoryAt q = true := by
  obtain ⟨mode, put⟩ : ∃ mode, IsPut fs place (.file content mode) fs' := by
    obtain ⟨_, ⟨_, _, put⟩ | ⟨_, mode, _, put⟩⟩ := writeFile_ok ok
    · exact ⟨_, put⟩
    · exact ⟨mode, put⟩
  rw [isDirectoryAt, put.view] at dir
  split at dir
  · simp [Node.isDirectory] at dir
  · exact dir

/-- No directory is made with a mode. -/
theorem isDirectoryAt_of_setMode {mode : Mode} (ok : setMode path mode fs = .ok () fs')
    (dir : fs'.isDirectoryAt q = true) : fs.isDirectoryAt q = true := by
  obtain ⟨place, x, looked, put⟩ := setMode_ok ok
  rw [isDirectoryAt, put.view] at dir
  split at dir
  · rename_i same
    subst same
    simpa [isDirectoryAt, get?_of_lookup looked] using dir
  · exact dir

theorem isDirectoryAt_of_setModes (ok : setModes plan fs = .ok () fs')
    (dir : fs'.isDirectoryAt q = true) : fs.isDirectoryAt q = true := by
  induction plan generalizing fs with
  | nil =>
    simp only [setModes, EStateM.Result.ok.injEq, true_and] at ok
    exact ok ▸ dir
  | cons p more ih =>
    obtain ⟨_, fs₁, first, others⟩ := bind_ok_iff.1 ok
    exact isDirectoryAt_of_setMode first (ih others)

/-- A directory under these names is needed for the part, which is there or behind. -/
structure Needs (target : Path) (p : PlannedEntry) (ns : List Text) : Prop where
  some : ns ≠ []
  behind : ∃ more, p.IsAt target (ns ++ more) ∧ (more = [] → p.kind = .directory)

/-- A directory that is made when a part is written is needed for it. -/
theorem exists_needs_of_writeEntry (leads : Leads fs target dest) (here : p.IsAt target names)
    (ok : writeEntry p fs = .ok () fs') (old : fs.isDirectoryAt q = false)
    (new : fs'.isDirectoryAt q = true) :
    ∃ ns path, Needs target p ns ∧ Continues target ns path ∧ Leads fs' path q := by
  cases kind : p.kind with
  | directory =>
    simp only [writeEntry, kind] at ok
    rw [← after_ok ok] at new ⊢
    obtain ⟨ns, path, some, ⟨more, rfl⟩, along, led⟩ :=
      exists_continues_of_made leads (continues_path here) old new
    exact ⟨ns, path, ⟨some, more, here, fun _ => kind⟩, along, led⟩
  | file =>
    obtain ⟨before, last, above, rfl, parent, absolute, steps, _⟩ :=
      exists_parent_names target here.steps here.some
    rw [← here.path] at parent
    simp only [writeEntry, kind, parent, Option.getD_some] at ok
    obtain ⟨_, fs₁, made, ok⟩ := bind_ok_iff.1 ok
    obtain ⟨_, fs₂, written, moded⟩ := bind_ok_iff.1 ok
    have kept : Preserved fs₁ fs' := (preserved_writeFile written).trans (preserved_setMode moded)
    have new₁ := isDirectoryAt_of_writeFile written (isDirectoryAt_of_setMode moded new)
    rw [← after_ok made] at new₁
    obtain ⟨ns, path, some, ⟨more, rfl⟩, along, led⟩ :=
      exists_continues_of_made leads ⟨absolute, steps⟩ old new₁
    rw [after_ok made] at led
    refine ⟨ns, path, ⟨some, more ++ [last], ?_, by simp⟩, along, led.preserved kept⟩
    rwa [← List.append_assoc]

/-- A directory that is made when all parts are written is needed for one of them. -/
theorem exists_needs_of_writeEntries (leads : Leads fs target dest)
    (parts : ∀ p ∈ plan, ∃ names, p.IsAt target names) (ok : writeEntries plan fs = .ok () fs')
    (old : fs.isDirectoryAt q = false) (new : fs'.isDirectoryAt q = true) :
    ∃ p ∈ plan, ∃ ns path, Needs target p ns ∧ Continues target ns path ∧ Leads fs' path q := by
  induction plan generalizing fs with
  | nil =>
    simp only [writeEntries, EStateM.Result.ok.injEq, true_and] at ok
    simp [ok, new] at old
  | cons p more ih =>
    obtain ⟨_, fs₁, first, others⟩ := bind_ok_iff.1 ok
    obtain ⟨⟨names, here⟩, parts⟩ := List.forall_mem_cons.1 parts
    cases there : fs₁.isDirectoryAt q with
    | true =>
      obtain ⟨ns, path, needs, along, led⟩ := exists_needs_of_writeEntry leads here first old there
      exact ⟨p, List.mem_cons_self, ns, path, needs, along,
        led.preserved (preserved_writeEntries others)⟩
    | false =>
      obtain ⟨p', mem, found⟩ :=
        ih (leads.preserved (preserved_writeEntry first)) parts others there
      exact ⟨p', List.mem_cons_of_mem _ mem, found⟩

/-! ## Directories that are listed -/

/-- The path that was written for one of the directory entries leads to this place. -/
def IsListed (entries : List Entry) (created : List Path) (fs : FileSystem) (q : Place) : Prop :=
  ∃ (i : Nat) (d : Entry) (path : Path), entries[i]? = some d ∧ d.kind = .directory
    ∧ created[i]? = some path ∧ locate fs .node path = .ok q

variable {values : Values} {entries : List Entry} {e : Entry} {i : Nat}

/-- What is planned for an entry has its number. -/
theorem getElem?_planned (planned : Plan.ofEntries values target entries = .ok plan)
    (here : entries[i]? = some e) :
    ∃ p, plan[i]? = some p ∧ Plan.ofEntry values target e = .ok p := by
  have parts := congrArg (·[i]?) (Plan.ofEntries_ok_iff.1 planned)
  simp only [List.getElem?_map, here, Option.map_some] at parts
  obtain ⟨p, found, made⟩ := Option.map_eq_some_iff.1 parts.symm
  exact ⟨p, found, made.symm⟩

/-- The path of a directory that has been written is in order. -/
theorem refusal?_of_writeEntry (here : p.IsAt target names) (kind : p.kind = .directory)
    (ok : writeEntry p fs = .ok () fs') : refusal? p.path = none := by
  have deep : Path.steps p.path ≠ [] := by
    rw [here.steps_path]
    simp [here.some]
  simp only [writeEntry, kind] at ok
  exact (leads_of_createDirectories ok (ancestors_ne_nil_of_steps deep)).1

/-- A directory that is made when the plan of nested entries is written is listed. -/
theorem isListed_of_made {placed : List (List Name × Entry)} (nested : Nested placed)
    (planned : Plan.ofEntries values target (placed.map Prod.snd) = .ok plan)
    (leads : Leads fs₁ target dest) (written : writeEntries plan fs₁ = .ok () fs₂)
    (moded : setModes (directoriesBackwards plan) fs₂ = .ok () fs')
    (old : fs₁.isDirectoryAt q = false) (new : fs'.isDirectoryAt q = true) :
    IsListed (placed.map Prod.snd) (plan.map PlannedEntry.path) fs' q := by
  obtain ⟨p, mem, ns, path, needs, along, led⟩ := exists_needs_of_writeEntries leads
    (exists_isAt planned) written old (isDirectoryAt_of_setModes moded new)
  obtain ⟨more, here, inner⟩ := needs.behind
  obtain ⟨e, inEntries, part⟩ := Plan.exists_entry planned mem
  obtain ⟨⟨names, e⟩, there, rfl⟩ := List.mem_map.1 inEntries
  obtain ⟨_, _, _, _, kind, _⟩ := Plan.ofEntry_ok part
  obtain ⟨d, listed, isDir, rendered⟩ :=
    nested.exists_rendered there (renderNames_of_isAt part here) needs.some
      fun last => kind ▸ inner last
  obtain ⟨i, number⟩ := List.mem_iff_getElem?.1 listed
  obtain ⟨p', number', part'⟩ := getElem?_planned planned number
  have at' := isAt_of_rendered part' rendered
  refine ⟨i, d, p'.path, number, isDir, by simp [number'], ?_⟩
  have allowed : refusal? p'.path = none := by
    obtain ⟨_, _, _, done⟩ := exists_write (List.mem_of_getElem? number') written
    obtain ⟨_, _, _, _, kind', _⟩ := Plan.ofEntry_ok part'
    exact refusal?_of_writeEntry at' (kind'.trans isDir) done
  have whole : Leads fs' p'.path q := by
    refine (led.preserved (preserved_setModes moded)).congr ?_ ?_
    · rw [at'.isAbsolute_path, along.kind]
    · rw [at'.steps_path, along.steps]
  exact whole.locate_eq allowed

/-- Nothing stands below a directory that was made for a target without `..`. -/
theorem childNames_made (checked : checkTarget target fs = .ok () fs)
    (made : createDirectories target fs = .ok () fs₁) (leads : Leads fs₁ target dest)
    (some : target ≠ []) (noUp : ['.', '.'] ∉ Path.segments target) : fs₁.childNames dest = [] := by
  rcases createDirectories_fresh noUp made leads with rfl | ⟨_, empty⟩
  · exact childNames_of_plain checked made leads some noUp
  · exact empty

/-! ## Paths that are created -/

/-- The path of every entry that is not at the root is the path of the directory entry of its
parent path, which is the only entry of that path and comes before, with the rendered name
of the entry joined to it. -/
def Renames (values : Values) (entries : List Entry) (created : List Path) : Prop :=
  ∀ (i : Nat) (e : Entry), entries[i]? = some e → e.parent ≠ ['.'] →
    ∃ (j : Nat) (d : Entry) (above : Path) (name : Text), j < i ∧ entries[j]? = some d
      ∧ d.kind = .directory ∧ d.path = e.parent
      ∧ (∀ (k : Nat) (d' : Entry), entries[k]? = some d' → d'.path = e.parent → k = j)
      ∧ created[j]? = some above ∧ Placeholder.render values e.name = .ok name
      ∧ created[i]? = some (Path.join above name)

/-- The plan of nested entries renames their tree. -/
theorem renames_of_nested {placed : List (List Name × Entry)} (nested : Nested placed)
    (planned : Plan.ofEntries values target (placed.map Prod.snd) = .ok plan) :
    Renames values (placed.map Prod.snd) (plan.map PlannedEntry.path) := by
  intro i e here deep
  have found := here
  rw [List.getElem?_map] at found
  obtain ⟨⟨names, e⟩, there, rfl⟩ := Option.map_eq_some_iff.1 found
  obtain ⟨j, above, d, earlier, number, isDir, path, within⟩ := nested.exists_earlier there deep
  have listed : (placed.map Prod.snd)[j]? = some d := by rw [List.getElem?_map, number]; rfl
  obtain ⟨p, planned₁, part⟩ := getElem?_planned planned here
  obtain ⟨p', planned₂, part'⟩ := getElem?_planned planned listed
  obtain ⟨ns, rendered, at₁⟩ := isAt_of_ofEntry part
  obtain ⟨parents, name, rendered', last, rfl⟩ :=
    (nested.renderNames_ok_iff within (List.mem_of_getElem? number)).1 rendered
  have at₂ := isAt_of_rendered part' rendered'
  have only : ∀ (k : Nat) (d' : Entry), (placed.map Prod.snd)[k]? = some d' →
      d'.path = e.parent → k = j := by
    intro k d' there' same
    rw [List.getElem?_map] at there'
    obtain ⟨v, number', rfl⟩ := Option.map_eq_some_iff.1 there'
    exact nested.getElem?_inj number' number (same.trans path.symm)
  refine ⟨j, d, p'.path, name, earlier, listed, isDir, path, only, by simp [planned₂],
    (Plan.renderComponent_ok_iff.1 last).1, ?_⟩
  rw [List.getElem?_map, planned₁, Option.map_some, at₁.path, List.foldl_append, ← at₂.path]
  rfl

end Instantiation

open Instantiation FileAction

variable {fs fs' : FileSystem} {t : Template} {target : Path} {values : Values} {report : Report}

/-- An instantiation of a captured template renames the tree that the template lists: every
entry is in the directory that was made for the directory entry of its parent path, and every
directory that is made, once those of the target are, is listed. So below the target there
are only directories that are listed if and only if this holds when only the directories of
the target are made, as it does for every target without `..` that is not the empty one. -/
theorem instantiate_renames (captured : t.IsCaptured)
    (h : instantiate t target values fs = .ok report fs') :
    Renames (lookupValues values report.values) t.entries report.created
      ∧ ∃ fs₁ dest, createDirectories target fs = .ok () fs₁ ∧ destination? fs' target = some dest
        ∧ (∀ q, fs'.isDirectoryAt q = true →
          fs₁.isDirectoryAt q = true ∨ IsListed t.entries report.created fs' q)
        ∧ ((∀ q, Below dest q → fs'.isDirectoryAt q = true → IsListed t.entries report.created fs' q)
          ↔ ∀ q, Below dest q → fs₁.isDirectoryAt q = true →
            IsListed t.entries report.created fs' q)
        ∧ (target ≠ [] → ['.', '.'] ∉ Path.segments target →
          ∀ q, Below dest q → fs'.isDirectoryAt q = true →
            IsListed t.entries report.created fs' q) := by
  obtain ⟨resolved, plan, fs₁, fs₂, checked, prepared, made, written, moded, rfl⟩ :=
    instantiate_ok h
  obtain ⟨placed, nested, entries⟩ := captured.exists_nested
  have planned := (prepare_ok prepared).2
  rw [← entries] at planned ⊢
  have kept : Preserved fs₁ fs' := (preserved_writeEntries written).trans (preserved_setModes moded)
  refine ⟨renames_of_nested nested planned, fs₁, ?_⟩
  by_cases trivial : plan = [] ∧ target = []
  · obtain ⟨rfl, rfl⟩ := trivial
    obtain rfl : fs₁ = fs₂ := by simpa [writeEntries] using written
    obtain rfl : fs₁ = fs' := by simpa [directoriesBackwards, setModes] using moded
    exact ⟨fs₁.workDir, made, rfl, fun q there => .inl there, .rfl, fun some => absurd rfl some⟩
  obtain ⟨dest, leads⟩ := exists_leads prepared made written trivial
  have located := destination?_of_leads (leads.preserved kept) (refusal?_of_checkTarget checked)
  have listed : ∀ q, fs'.isDirectoryAt q = true → fs₁.isDirectoryAt q = true
      ∨ IsListed (placed.map Prod.snd) (plan.map PlannedEntry.path) fs' q := by
    intro q there
    cases old : fs₁.isDirectoryAt q with
    | true => exact .inl rfl
    | false => exact .inr (isListed_of_made nested planned leads written moded old there)
  refine ⟨dest, made, located, listed, ⟨fun all q below old => all q below (kept.dirs q old),
      fun front q below there => (listed q there).elim (front q below) id⟩,
    fun some noUp q below there => ?_⟩
  refine (listed q there).resolve_left fun old => ?_
  obtain ⟨mode, found⟩ := get?_of_isDirectoryAt old
  simp [get?_below_of_childNames (childNames_made checked made leads some noUp) below] at found

/-- The file is created in the directory that is created for its parent, and no other directory
is made. -/
theorem instantiate_renames_package :
    ∃ report fs' dest, instantiate packageTemplate "out".toList
        (.insert .empty "pkg".toList "src".toList) package = .ok report fs'
      ∧ report.created = ["out/src".toList, "out/src/you.txt".toList]
      ∧ Renames (lookupValues (.insert .empty "pkg".toList "src".toList) report.values)
        packageTemplate.entries report.created
      ∧ destination? fs' "out".toList = some dest
      ∧ ∀ q, Below dest q → fs'.isDirectoryAt q = true →
        IsListed packageTemplate.entries report.created fs' q := by
  obtain ⟨report, fs', ok, created⟩ : ∃ report fs', instantiate packageTemplate "out".toList
      (.insert .empty "pkg".toList "src".toList) package = .ok report fs'
      ∧ report.created = ["out/src".toList, "out/src/you.txt".toList] := by
    decide +kernel
  obtain ⟨renames, _, dest, _, located, _, _, listed⟩ := instantiate_renames isCaptured_package ok
  exact ⟨report, fs', dest, ok, created, renames, located, listed (by decide) (by decide)⟩

/-- A project with an empty directory, beside an empty working directory. -/
def workshop : FileSystem :=
  (((FileSystem.empty.put packageRoot (.directory 0o755)).put (.text "d".toList :: packageRoot)
    (.directory 0o755)).put [.text "w".toList] (.directory 0o755)).withWorkDir [.text "w".toList]
    (by decide)

/-- The template of the project. -/
def workshopTemplate : Template := ⟨[⟨"d".toList, .directory, ".".toList, 0o755, none, []⟩], []⟩

/-- In front of the `..` of a target a directory is made that the template does not list. -/
theorem exists_unlisted_directory :
    workshopTemplate.IsCaptured ∧ lookup workshop "new/..".toList = .error .notFound
      ∧ ∃ report fs' dest q, instantiate workshopTemplate "new/..".toList .empty workshop
          = .ok report fs'
        ∧ destination? fs' "new/..".toList = some dest ∧ Below dest q
        ∧ fs'.isDirectoryAt q = true ∧ ¬ IsListed workshopTemplate.entries report.created fs' q := by
  have project : IsProject workshop packageRoot := by decide +kernel
  have scanned : scan workshop [] (pathOf packageRoot) = .ok workshopTemplate.entries := by
    rw [scan_pathOf project, Scan.visits_eq (by decide +kernel)]
    decide +kernel
  refine ⟨⟨workshop, [], _, _, scanned, by decide +kernel⟩, by decide +kernel, ?_⟩
  obtain ⟨report, fs', ok, created, located, there, leads⟩ : ∃ report fs',
      instantiate workshopTemplate "new/..".toList .empty workshop = .ok report fs'
      ∧ report.created = ["new/../d".toList]
      ∧ destination? fs' "new/..".toList = some [.text "w".toList]
      ∧ fs'.isDirectoryAt [.text "new".toList, .text "w".toList] = true
      ∧ locate fs' .node "new/../d".toList = .ok [.text "d".toList, .text "w".toList] := by
    decide +kernel
  refine ⟨report, fs', _, _, ok, located, ⟨[.text "new".toList], by simp, rfl⟩, there, ?_⟩
  rintro ⟨i, d, path, _, _, number, here⟩
  rw [created] at number
  obtain rfl := List.mem_singleton.1 (List.mem_of_getElem? number)
  rw [leads] at here
  exact absurd here (by decide)

end Scaffold
