import Scaffold.Proofs.Action
import Scaffold.Proofs.FileSystem.Canonical
import Scaffold.Proofs.FileSystem.Names
import Scaffold.Proofs.Instantiation.Plan

/-!
# Writing below a directory

The parts of a plan are written along names from the directory that the target leads to.
As long as no link stands below it, every node that is made or changed on the way stands
below it too, and no link is made. So a whole plan changes nothing outside.
-/

namespace Scaffold

namespace FileSystem

variable {fs fs' fs₁ : FileSystem} {goal : Goal} {here place dir q : Place} {w : Walk} {links : Nat}
  {followed : List Place} {path target c : Path} {names : List Text} {x y : Node}

/-- No link stands below the directory. -/
def NoLinkBelow (fs : FileSystem) (dir : Place) : Prop :=
  ∀ q target, Below dir q → fs.get? q ≠ some (.link target)

theorem NoLinkBelow.grown (h : NoLinkBelow fs dir) (grown : Grown fs fs') : NoLinkBelow fs' dir := by
  intro q target below found
  cases old : fs.get? q with
  | none => simpa [Node.isDirectory] using grown.added q _ old found
  | some x =>
    rw [grown.kept q x old] at found
    exact h q target below (old.trans found)

/-- No link stands below an empty directory. -/
theorem noLinkBelow_of_childNames (empty : fs.childNames dir = []) : NoLinkBelow fs dir := by
  intro q target below found
  simp [get?_below_of_childNames empty below] at found

theorem below_placeOf (dir : Place) (some : names ≠ []) : Below dir (placeOf dir names) :=
  ⟨(names.map Octets.text).reverse, by simpa using some, rfl⟩

/-! ## Where names lead -/

theorem Walks.eq_placeOf (h : Walks fs goal dir names w) (noLink : NoLinkBelow fs dir)
    (noUp : ['.', '.'] ∉ names) :
    w = .arrived (placeOf dir (names.filter fun s => !Path.isIdle s)) := by
  induction h with
  | done => rfl
  | idle _ none _ ih =>
    rw [List.filter_cons_of_neg (by simp [none])]
    exact ih noLink fun mem => noUp (List.mem_cons_of_mem _ mem)
  | up => exact absurd List.mem_cons_self noUp
  | @vacant here segment rest dir name free last =>
    have none : rest.filter (fun s => !Path.isIdle s) = [] := by
      refine List.filter_eq_nil_iff.2 fun s mem => ?_
      have empty : s = [] := by simpa using List.all_eq_true.1 last s mem
      simp [empty, Path.isIdle]
    rw [List.filter_cons_of_pos (by simp [name.notIdle]), none]
    rfl
  | entry _ _ found => exact absurd found (noLink _ _ (below_cons ..))
  | follow _ _ found => exact absurd found (noLink _ _ (below_cons ..))
  | on _ name _ _ _ ih =>
    rw [List.filter_cons_of_pos (by simp [name.notIdle]), placeOf_cons]
    exact ih (fun q target below => noLink q target below.of_cons)
      fun mem => noUp (List.mem_cons_of_mem _ mem)

/-- Names that do not lead up lead to their place where no link stands below. -/
theorem Resolves.eq_placeOf (h : Resolves fs goal links dir names followed place)
    (noLink : NoLinkBelow fs dir) (noUp : ['.', '.'] ∉ names) :
    place = placeOf dir (names.filter fun s => !Path.isIdle s) := by
  cases h with
  | arrive walks => exact Walk.arrived.inj (walks.eq_placeOf noLink noUp)
  | follow walks => simpa using walks.eq_placeOf noLink noUp

theorem Resolves.eq_placeOf_steps (h : Resolves fs goal links dir names followed place)
    (noLink : NoLinkBelow fs dir) (steps : ∀ n ∈ names, IsStep n) : place = placeOf dir names := by
  have all : names.filter (fun s => !Path.isIdle s) = names :=
    List.filter_eq_self.2 fun n mem => by simp [(steps n mem).notIdle]
  rw [h.eq_placeOf noLink fun mem => (steps _ mem).notUp rfl, all]

/-- Behind a path to a directory the names that are joined to it are resolved from there. -/
theorem Leads.locate_names (h : Leads fs target dir) (steps : ∀ n ∈ names, IsStep n)
    (some : names ≠ []) : ∃ left, ∀ goal, refusal? (names.foldl Path.join target) = none →
      locate fs goal (names.foldl Path.join target) = resolve fs goal left dir names := by
  have words : ∀ n ∈ names, Path.IsWord n := fun n mem => (steps n mem).word
  obtain ⟨front, segs, filtered, _⟩ := Path.segments_foldl_join words some target
  obtain ⟨_, resolves⟩ := h.exists_resolves (sameSteps_of_filter filtered)
  obtain ⟨left, behind⟩ := resolves.append h.there
  refine ⟨left, fun goal allowed => ?_⟩
  obtain ⟨n, mem⟩ := List.exists_mem_of_ne_nil names some
  rw [locate, allowed]
  simp only [segs, startOf, Path.isAbsolute_foldl_join words]
  rw [← startOf, behind goal names ⟨n, mem, (words n mem).1⟩]

/-- A name that is joined to a path to a directory is the name of an entry of it. -/
theorem Leads.locate_join {name : Text} (h : Leads fs target dir) (step : IsStep name)
    (fits : Text.fits maxNameLength name = true)
    (allowed : refusal? (Path.join target name) = none) :
    locate fs .entry (Path.join target name) = .ok (.text name :: dir) := by
  obtain ⟨left, behind⟩ := h.locate_names (show ∀ n ∈ [name], IsStep n by simpa using step) (by simp)
  have located := behind .entry allowed
  rw [List.foldl_cons, List.foldl_nil] at located
  have isName : IsName .entry name [] := ⟨step.notIdle, step.notUp, by simp, fits⟩
  rw [located]
  exact resolve_of_walk_arrived (walk_entry h.there isName)

/-- What stands elsewhere does not matter to where a joined name leads. -/
theorem Leads.locate_join_eq {name : Text} (h : Leads fs target dir) (h' : Leads fs' target dir)
    (step : IsStep name) :
    locate fs' .entry (Path.join target name) = locate fs .entry (Path.join target name) := by
  cases allowed : refusal? (Path.join target name) with
  | some why => simp only [locate, allowed]
  | none =>
    by_cases fits : Text.fits maxNameLength name = true
    · rw [h.locate_join step fits allowed, h'.locate_join step fits allowed]
    · have long {fs : FileSystem} (h : Leads fs target dir) :
          locate fs .entry (Path.join target name) = .error .invalidFilename := by
        obtain ⟨left, behind⟩ :=
          h.locate_names (show ∀ n ∈ [name], IsStep n by simpa using step) (by simp)
        have located := behind .entry allowed
        rw [List.foldl_cons, List.foldl_nil] at located
        obtain ⟨mode, found⟩ := get?_of_isDirectoryAt h.there
        rw [located, resolve]
        simp [walk, found, step.notIdle, step.notUp, fits]
      rw [long h, long h']

/-- Where a path of a plan leads, the names lead from the directory of the target. -/
theorem Leads.locate_eq_placeOf (h : Leads fs target dir) (noLink : NoLinkBelow fs dir)
    (steps : ∀ n ∈ names, IsStep n) (some : names ≠ [])
    (located : locate fs goal (names.foldl Path.join target) = .ok place) :
    place = placeOf dir names := by
  have allowed := refusal?_of_locate located
  obtain ⟨left, names_eq⟩ := h.locate_names steps some
  rw [names_eq goal allowed] at located
  obtain ⟨_, resolves⟩ := FileSystem.exists_resolves located
  exact resolves.eq_placeOf_steps noLink steps

/-- A directory that is made on the way to a path behind the target stands below the
directory of the target. What is in front of it is there already. -/
theorem Leads.below_of_created (h : Leads fs target dir) (noLink : NoLinkBelow fs dir)
    (kind : Path.isAbsolute c = Path.isAbsolute target)
    (along : Path.steps c = Path.steps target ++ names) (steps : ∀ n ∈ names, IsStep n)
    (mem : path ∈ ancestors c) (located : locateEntry fs path = .ok place)
    (vacant : IsVacant fs place) : Below dir place := by
  have kind' := ((Path.chain_ancestors c).mem mem).1
  have grown : Grown fs (fs.put place (.directory 0)) := vacant.grown
  have made : Leads (fs.put place (.directory 0)) path place :=
    (leads_of_locateEntry located vacant).2
  -- A path on the way to the target leads to a directory, so nothing can be made there.
  have notAbove : ¬ Path.steps path <+: Path.steps target := by
    rintro ⟨more, front⟩
    obtain ⟨dir', old⟩ := h.front (kind'.trans kind) front.symm
    exact old.not_isVacant located vacant
  obtain ⟨more, some, part, behind⟩ := Path.exists_steps_behind along mem notAbove
  have stepsMore : ∀ n ∈ more, IsStep n := fun n mem => steps n (part.subset mem)
  have noLink' : NoLinkBelow (fs.put place (.directory 0)) dir := by
    intro q target below found
    rw [vacant.get?_put (by simp)] at found
    split at found
    · simp at found
    · exact noLink q target below found
  obtain ⟨_, resolves⟩ := (h.preserved grown.preserved).resolves
  obtain ⟨left, gone⟩ := resolves.append ((h.preserved grown.preserved).there)
  obtain ⟨n, mem⟩ := List.exists_mem_of_ne_nil more some
  obtain ⟨_, whole⟩ := made.resolves
  have whole := whole.resolve_eq
  rw [behind, startOf, kind', kind, ← startOf,
    gone .node more ⟨n, mem, (stepsMore n mem).word.1⟩] at whole
  obtain ⟨_, resolves⟩ := FileSystem.exists_resolves whole
  rw [resolves.eq_placeOf_steps noLink' stepsMore]
  exact below_placeOf dir some

/-- If the directories of a path that does not lead up are made, every new one is above what is
found under a further name. -/
theorem below_of_createDirectories {front : Path} {last : Text}
    (made : FileAction.createDirectories front fs = .ok () fs')
    (kind : Path.isAbsolute path = Path.isAbsolute front)
    (along : Path.steps path = Path.steps front ++ [last]) (noUp : ['.', '.'] ∉ Path.segments path)
    (located : locate fs' goal path = .ok place) (new : fs.get? q = none)
    (found : fs'.get? q = some x) : Below q place := by
  obtain ⟨grown, known⟩ := FileAction.grown_createAll (ancestors front) fs
  rw [FileAction.after_ok (show FileAction.createAll (ancestors front) fs = _ from made)]
    at grown known
  obtain ⟨p, mem, _, leads⟩ := known q x new found
  obtain ⟨kind', more, parts⟩ := (Path.chain_ancestors front).mem mem
  -- what stands below a new directory is new, so it is no link
  have noLink : NoLinkBelow fs' q := by
    rintro _ target ⟨names, some, rfl⟩ isLink
    cases before : fs.get? (names ++ q) with
    | none => simpa [Node.isDirectory] using grown.added _ _ before isLink
    | some y =>
      have there := isDirectoryAt_of_append before some
      simp [isDirectoryAt, new] at there
  rw [← parts, List.append_assoc] at along
  obtain ⟨before, behind, segs, first, rest⟩ := List.filter_eq_append_iff.1 along
  have some : ∃ s ∈ behind, s ≠ [] := by
    have mem : last ∈ behind.filter fun s => !Path.isIdle s := by simp [rest]
    refine ⟨last, (List.mem_filter.1 mem).1, ?_⟩
    rintro rfl
    simp [Path.isIdle] at mem
  obtain ⟨_, resolves⟩ := leads.exists_resolves (sameSteps_of_filter first)
  obtain ⟨left, onward⟩ := resolves.append leads.there
  rw [locate, refusal?_of_locate located, startOf, kind, ← kind', ← startOf, segs] at located
  obtain ⟨_, resolves⟩ := FileSystem.exists_resolves ((onward goal behind some).symm.trans located)
  have noUp' : ['.', '.'] ∉ behind := fun mem => noUp (segs ▸ List.mem_append_right _ mem)
  rw [resolves.eq_placeOf noLink noUp', rest]
  exact below_placeOf q (by simp)

/-- A change that makes no link and leaves alone what is not below the directory. -/
structure Confined (fs₁ fs : FileSystem) (dir : Place) : Prop where
  preserved : Preserved fs₁ fs
  outside : ∀ q, ¬ Below dir q → fs.get? q = fs₁.get? q
  inside : NoLinkBelow fs dir

theorem Confined.refl (inside : NoLinkBelow fs dir) : Confined fs fs dir :=
  ⟨.refl fs, fun _ _ => rfl, inside⟩

theorem Confined.isPut (h : Confined fs₁ fs dir) (below : Below dir place)
    (put : IsPut fs place y fs') (preserved : Preserved fs fs') (link : ∀ target, y ≠ .link target) :
    Confined fs₁ fs' dir := by
  refine ⟨h.preserved.trans preserved, fun q outside => ?_, fun q target inside found => ?_⟩
  · rw [put.other, h.outside q outside]
    rintro rfl
    exact outside below
  · by_cases this : q = place
    · subst this
      rw [put.self] at found
      exact link target (Option.some.inj found)
    · rw [put.other this] at found
      exact h.inside q target inside found

end FileSystem

namespace PlannedEntry

/-- The path of the part goes on behind the target with at least one step. -/
def IsBelow (target : Path) (p : PlannedEntry) : Prop :=
  ∃ names, names ≠ [] ∧ (∀ n ∈ names, IsStep n) ∧ p.path = names.foldl Path.join target

end PlannedEntry

namespace Instantiation

open FileAction FileSystem

variable {fs fs' fs₁ : FileSystem} {target c : Path} {dir : Place} {names : List Text}
  {p : PlannedEntry} {plan : List PlannedEntry}

private theorem confined_createDirectories (leads : Leads fs₁ target dir)
    (kind : Path.isAbsolute c = Path.isAbsolute target)
    (along : Path.steps c = Path.steps target ++ names) (steps : ∀ n ∈ names, IsStep n) :
    Keeps (fun fs => Confined fs₁ fs dir) (createDirectories c) := by
  intro fs h
  refine createAll_preserves (P := fun fs => Confined fs₁ fs dir) h ?_
  intro fs path place mem confined located vacant
  have here : Leads fs target dir := leads.preserved confined.preserved
  have below := here.below_of_created confined.inside kind along steps mem located vacant
  exact confined.isPut below (vacant.isPut (by simp)) vacant.grown.preserved (by simp)

theorem filter_steps (steps : ∀ n ∈ names, IsStep n) :
    names.filter (fun s => !Path.isIdle s) = names :=
  List.filter_eq_self.2 fun n mem => by simp [(steps n mem).notIdle]

/-- The parent of a path behind the target leads along the names before the last one. -/
theorem exists_parent_names (target : Path) (steps : ∀ n ∈ names, IsStep n) (some : names ≠ []) :
    ∃ before last q, names = before ++ [last]
      ∧ Path.parent? (names.foldl Path.join target) = .some q
      ∧ Path.isAbsolute q = Path.isAbsolute target
      ∧ Path.steps q = Path.steps target ++ before ∧ Path.EndsInStep q
      ∧ ∀ a ∈ ancestors q,
        (Path.segments a).Sublist (Path.segments (names.foldl Path.join target)) := by
  obtain ⟨before, last, rfl⟩ : ∃ before last, names = before ++ [last] :=
    ⟨names.dropLast, names.getLast some, (List.dropLast_concat_getLast some).symm⟩
  have words : ∀ n ∈ before ++ [last], Path.IsWord n := fun n mem => (steps n mem).word
  obtain ⟨front, segs, filtered, _⟩ := Path.segments_foldl_join words some target
  rw [← List.append_assoc] at segs
  obtain ⟨q, parent, kind, along, ends, part⟩ := Path.exists_parent segs
    (steps last (List.mem_append_right _ List.mem_cons_self)).notIdle
  refine ⟨before, last, q, rfl, parent, ?_, ?_, ends, part⟩
  · rw [kind, Path.isAbsolute_foldl_join words]
  · rw [along, List.filter_append, filtered,
      filter_steps fun n mem => steps n (List.mem_append_left _ mem)]

private theorem confined_writeFile (leads : Leads fs₁ target dir) (steps : ∀ n ∈ names, IsStep n)
    (some : names ≠ []) (content : Octets) :
    Keeps (fun fs => Confined fs₁ fs dir) (writeFile (names.foldl Path.join target) content) := by
  refine .of_ok (fun fs why fs' => writeFile_error) fun fs place fs' h ok => ?_
  have here : Leads fs target dir := leads.preserved h.preserved
  obtain ⟨located, ⟨_, _, put⟩ | ⟨_, mode, _, put⟩⟩ := writeFile_ok ok
  all_goals
    have below := here.locate_eq_placeOf h.inside steps some located
    exact h.isPut (below ▸ below_placeOf dir some) put (preserved_writeFile ok) (by simp)

theorem confined_setMode (leads : Leads fs₁ target dir) (below : p.IsBelow target)
    (mode : Mode) : Keeps (fun fs => Confined fs₁ fs dir) (setMode p.path mode) := by
  refine .of_ok (fun fs why fs' => setMode_error) fun fs _ fs' h ok => ?_
  obtain ⟨names, some, steps, path⟩ := below
  have here : Leads fs target dir := leads.preserved h.preserved
  obtain ⟨place, x, looked, put⟩ := setMode_ok ok
  have located := locate_of_lookup looked
  rw [path] at located
  have below : Below dir place :=
    here.locate_eq_placeOf h.inside steps some located ▸ below_placeOf dir some
  refine h.isPut below put (preserved_setMode ok) (fun target eq => ?_)
  have link : x = .link target := by cases x <;> simp_all [Node.withMode]
  exact h.inside place target below (link ▸ get?_of_lookup looked)

/-- Writing one part changes nothing outside of the directory of the target, even if it is
refused halfway. -/
theorem confined_writeEntry (leads : Leads fs₁ target dir) (below : p.IsBelow target) :
    Keeps (fun fs => Confined fs₁ fs dir) (writeEntry p) := by
  have below' := below
  obtain ⟨names, some, steps, path⟩ := below
  have words : ∀ n ∈ names, Path.IsWord n := fun n mem => (steps n mem).word
  unfold writeEntry
  split
  · refine confined_createDirectories leads ?_ ?_ steps
    · rw [path, Path.isAbsolute_foldl_join words]
    · rw [path, Path.steps_foldl_join words, filter_steps steps]
  · obtain ⟨before, last, q, rfl, parent, kind, along, _⟩ := exists_parent_names target steps some
    have above : Keeps (fun fs => Confined fs₁ fs dir) (createDirectories q) :=
      confined_createDirectories leads kind along
        fun n mem => steps n (List.mem_append_left _ mem)
    have written := confined_writeFile leads steps some (.text p.content)
    rw [← path] at parent written
    rw [parent, Option.getD_some]
    exact above.bind fun _ => written.bind fun _ => confined_setMode leads below' p.mode

theorem confined_writeEntries (leads : Leads fs₁ target dir)
    (below : ∀ p ∈ plan, p.IsBelow target) :
    Keeps (fun fs => Confined fs₁ fs dir) (writeEntries plan) := by
  induction plan with
  | nil => exact fun _ h => h
  | cons p more ih =>
    exact (confined_writeEntry leads (below p List.mem_cons_self)).bind fun _ =>
      ih fun q mem => below q (List.mem_cons_of_mem _ mem)

theorem confined_setModes (leads : Leads fs₁ target dir) (below : ∀ p ∈ plan, p.IsBelow target) :
    Keeps (fun fs => Confined fs₁ fs dir) (setModes plan) := by
  induction plan with
  | nil => exact fun _ h => h
  | cons p more ih =>
    exact (confined_setMode leads (below p List.mem_cons_self) p.mode).bind fun _ =>
      ih fun q mem => below q (List.mem_cons_of_mem _ mem)

/-! ## Whatever stands below -/

theorem preserved_writeEntry (ok : writeEntry p fs = .ok () fs') : Preserved fs fs' := by
  cases kind : p.kind with
  | directory =>
    simp only [writeEntry, kind] at ok
    exact preserved_createDirectories ok
  | file =>
    simp only [writeEntry, kind] at ok
    obtain ⟨_, _, made, ok⟩ := bind_ok_iff.1 ok
    obtain ⟨_, _, written, moded⟩ := bind_ok_iff.1 ok
    exact ((preserved_createDirectories made).trans (preserved_writeFile written)).trans
      (preserved_setMode moded)

theorem preserved_writeEntries (ok : writeEntries plan fs = .ok () fs') : Preserved fs fs' := by
  induction plan generalizing fs with
  | nil =>
    simp only [writeEntries, EStateM.Result.ok.injEq, true_and] at ok
    exact ok ▸ .refl fs
  | cons p more ih =>
    obtain ⟨_, _, first, others⟩ := bind_ok_iff.1 ok
    exact (preserved_writeEntry first).trans (ih others)

theorem preserved_setModes (ok : setModes plan fs = .ok () fs') : Preserved fs fs' := by
  induction plan generalizing fs with
  | nil =>
    simp only [setModes, EStateM.Result.ok.injEq, true_and] at ok
    exact ok ▸ .refl fs
  | cons p more ih =>
    obtain ⟨_, _, first, others⟩ := bind_ok_iff.1 ok
    exact (preserved_setMode first).trans (ih others)

/-- A name that is resolved from a directory is short enough. -/
private theorem fits_of_resolves {goal : Goal} {left : Nat} {name : Text} {more : List Text}
    {followed : List Place} {place : Place}
    (h : Resolves fs goal left dir (name :: more) followed place) (step : IsStep name) :
    Text.fits maxNameLength name = true := by
  have walks {w : Walk} (walks : Walks fs goal dir (name :: more) w) :
      Text.fits maxNameLength name = true := by
    cases walks with
    | idle _ none => simp [step.notIdle] at none
    | up => exact absurd rfl step.notUp
    | vacant _ name => exact name.fits
    | entry _ name => exact name.fits
    | follow _ name => exact name.fits
    | on _ name => exact name.fits
  cases h with
  | arrive first => exact walks first
  | follow first => exact walks first

/-- What is in front of names that are joined to a path is no longer than the whole. -/
theorem refusal?_of_foldl_join (words : ∀ n ∈ names, Path.IsWord n) (some : c ≠ [])
    (allowed : refusal? (names.foldl Path.join c) = none) : refusal? c = none := by
  induction names generalizing c with
  | nil => exact allowed
  | cons n names ih =>
    have word := words n List.mem_cons_self
    obtain ⟨slash, joined⟩ : ∃ slash, Path.join c n = c ++ (slash ++ n) := by
      by_cases ends : Text.endsIn '/' c = true
      · exact ⟨[], by simp [Path.join, word.not_absolute, ends]⟩
      · exact ⟨['/'], by simp [Path.join, word.not_absolute, ends, some]⟩
    have longer := ih (fun m mem => words m (List.mem_cons_of_mem _ mem)) (by simp [joined, some])
      allowed
    refine refusal?_of_le longer (fun nul => ?_) ?_ some
    · exact joined ▸ List.mem_append_left _ nul
    · rw [joined, Text.utf8Length_append]
      omega

/-- If a part could be written behind the target, then the first of its names is short
enough, and so is its path up to there. -/
theorem fits_of_writeEntry {name : Text} {more : List Text} (leads : Leads fs target dir)
    (steps : ∀ n ∈ name :: more, IsStep n)
    (path : p.path = (name :: more).foldl Path.join target) (ok : writeEntry p fs = .ok () fs') :
    refusal? (Path.join target name) = none ∧ Text.fits maxNameLength name = true := by
  have words : ∀ n ∈ name :: more, Path.IsWord n := fun n mem => (steps n mem).word
  have step := steps name List.mem_cons_self
  have nonempty : Path.join target name ≠ [] := by
    intro none
    have lost := Path.steps_join target step.word
    rw [none] at lost
    simp [step.notIdle] at lost
  have found {goal : Goal} {fs₁ : FileSystem} {place : Place} (here : Leads fs₁ target dir)
      (located : locate fs₁ goal p.path = .ok place) :
      refusal? (Path.join target name) = none ∧ Text.fits maxNameLength name = true := by
    have allowed := refusal?_of_locate located
    obtain ⟨left, behind⟩ := here.locate_names steps (by simp)
    have rest := behind goal (path ▸ allowed)
    rw [← path, located] at rest
    obtain ⟨_, resolves⟩ := exists_resolves rest.symm
    refine ⟨refusal?_of_foldl_join (fun n mem => words n (List.mem_cons_of_mem _ mem)) nonempty ?_,
      fits_of_resolves resolves step⟩
    rwa [path] at allowed
  cases kind : p.kind with
  | directory =>
    simp only [writeEntry, kind] at ok
    have some : Path.steps p.path ≠ [] := by
      rw [path, Path.steps_foldl_join words, filter_steps steps]
      simp
    obtain ⟨allowed, _, made⟩ := leads_of_createDirectories ok (ancestors_ne_nil_of_steps some)
    exact found (leads.preserved (preserved_createDirectories ok)) (made.locate_eq allowed)
  | file =>
    simp only [writeEntry, kind] at ok
    obtain ⟨_, _, made, ok⟩ := bind_ok_iff.1 ok
    obtain ⟨_, _, written, _⟩ := bind_ok_iff.1 ok
    exact found (leads.preserved (preserved_createDirectories made)) (writeFile_ok written).1

end Instantiation

end Scaffold
