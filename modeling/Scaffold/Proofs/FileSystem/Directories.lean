import Scaffold.Proofs.Action
import Scaffold.Proofs.FileSystem.Frame
import Scaffold.Proofs.Path.Ancestors

/-!
# Making directories

`Leads` says that a path leads to a directory. It depends on the steps of the path alone
and outlasts every change that keeps directories and links. Making the directories of a
path only adds directories, each at a place to which one of the paths leads from then on.
-/

namespace Scaffold

namespace FileSystem

variable {fs fs' fs'' : FileSystem} {path p q : Path} {place dir : Place} {x : Node} {mode : Mode}

/-! ## Paths that lead to a directory -/

/-- The path leads to this directory. The empty path, which the file system refuses, leads
to where relative paths start. -/
structure Leads (fs : FileSystem) (path : Path) (dir : Place) : Prop where
  resolves : ∃ followed,
    Resolves fs .node maxLinks (startOf fs.workDir path) (Path.steps path) followed dir
  there : fs.isDirectoryAt dir = true

/-- What a change has to keep so that no path to a directory is lost. -/
structure Preserved (fs fs' : FileSystem) : Prop where
  dirs : KeepsDirectories fs fs'
  links : ∀ q target, fs.get? q = some (.link target) → fs'.get? q = some (.link target)
  workDir : fs'.workDir = fs.workDir

theorem Preserved.trans (h : Preserved fs fs') (h' : Preserved fs' fs'') : Preserved fs fs'' :=
  ⟨fun q dir => h'.dirs q (h.dirs q dir), fun q target found => h'.links q target
    (h.links q target found), h'.workDir.trans h.workDir⟩

theorem Preserved.refl (fs : FileSystem) : Preserved fs fs := ⟨fun _ h => h, fun _ _ h => h, rfl⟩

/-- Links that were followed are still there. -/
theorem Preserved.followed {goal : Goal} {links : Nat} {here : Place} {segments : List Text}
    {followed : List Place} (h : Preserved fs fs')
    (resolves : Resolves fs goal links here segments followed place) :
    ∀ link ∈ followed, fs'.get? link = fs.get? link := by
  intro link mem
  obtain ⟨target, isLink⟩ := resolves.isLink mem
  rw [isLink, h.links link target isLink]

theorem Leads.preserved (h : Leads fs path dir) (kept : Preserved fs fs') :
    Leads fs' path dir := by
  obtain ⟨followed, resolves⟩ := h.resolves
  refine ⟨⟨followed, ?_⟩, kept.dirs _ h.there⟩
  rw [kept.workDir]
  exact resolves.frame kept.dirs (kept.followed resolves)
    (.directory (kept.dirs _ h.there))

theorem Leads.congr (h : Leads fs p dir) (kind : Path.isAbsolute q = Path.isAbsolute p)
    (steps : Path.steps q = Path.steps p) : Leads fs q dir := by
  obtain ⟨followed, resolves⟩ := h.resolves
  refine ⟨⟨followed, ?_⟩, h.there⟩
  rwa [steps, startOf, kind]

theorem Leads.unique {dir' : Place} (h : Leads fs path dir) (h' : Leads fs path dir') :
    dir = dir' := by
  obtain ⟨_, resolves⟩ := h.resolves
  obtain ⟨_, resolves'⟩ := h'.resolves
  exact Except.ok.inj (resolves.resolve_eq.symm.trans resolves'.resolve_eq)

theorem sameSteps_steps (path : Path) : SameSteps (Path.segments path) (Path.steps path) := by
  simp [SameSteps, Path.steps]

theorem sameSteps_of_filter {segments : List Text}
    (h : segments.filter (fun s => !Path.isIdle s) = Path.steps path) :
    SameSteps segments (Path.steps path) := by
  rw [SameSteps, h]
  simp [Path.steps]

theorem Leads.of_resolves {followed : List Place} {segments : List Text}
    (h : Resolves fs .node maxLinks (startOf fs.workDir path) segments followed dir)
    (there : fs.isDirectoryAt dir = true) (same : SameSteps segments (Path.steps path)) :
    Leads fs path dir :=
  ⟨⟨followed, h.sameSteps there same⟩, there⟩

theorem Leads.exists_resolves {segments : List Text} (h : Leads fs path dir)
    (same : SameSteps segments (Path.steps path)) :
    ∃ followed, Resolves fs .node maxLinks (startOf fs.workDir path) segments followed dir := by
  obtain ⟨followed, resolves⟩ := h.resolves
  exact ⟨followed, resolves.sameSteps h.there same.symm⟩

/-- A path that goes along the front of a path to a directory leads to one as well. -/
theorem Leads.front {more : List Text} (h : Leads fs path dir)
    (kind : Path.isAbsolute p = Path.isAbsolute path)
    (parts : Path.steps path = Path.steps p ++ more) : ∃ dir', Leads fs p dir' := by
  obtain ⟨_, resolves⟩ := h.resolves
  obtain ⟨followed, dir', up, there, _⟩ := resolves.front parts fun _ => h.there
  rw [startOf, ← kind, ← startOf] at up
  exact ⟨dir', ⟨followed, up⟩, there⟩

/-- A path to a directory leads there, unless the path is refused as it stands. -/
theorem Leads.locate_eq (h : Leads fs path dir) (allowed : refusal? path = none) :
    locate fs .node path = .ok dir := by
  obtain ⟨_, resolves⟩ := h.exists_resolves (sameSteps_steps path)
  rw [locate, allowed]
  exact resolves.resolve_eq

theorem Leads.lookup_eq (h : Leads fs path dir) (allowed : refusal? path = none)
    (found : fs.get? dir = some x) : lookup fs path = .ok (dir, x) := by
  simp only [lookup, h.locate_eq allowed, found]

theorem refusal?_of_locate {goal : Goal} (h : locate fs goal path = .ok place) :
    refusal? path = none := by
  unfold locate at h
  split at h
  · simp at h
  · assumption

theorem locate_of_lookup (h : lookup fs path = .ok (place, x)) :
    locate fs .node path = .ok place := by
  unfold lookup at h
  split at h
  · simp at h
  · rename_i located
    split at h
    · simp at h
    · simp only [Except.ok.injEq, Prod.mk.injEq] at h
      exact h.1 ▸ located

theorem areTexts_of_lookup (h : lookup fs path = .ok (place, x)) : AreTexts place :=
  areTexts_of_locate (locate_of_lookup h)

theorem leads_of_lookup (h : lookup fs path = .ok (dir, x)) (isDir : x.isDirectory = true) :
    Leads fs path dir := by
  have located := locate_of_lookup h
  have there : fs.isDirectoryAt dir = true := by
    simp [isDirectoryAt, get?_of_lookup h, isDir]
  rw [locate, refusal?_of_locate located] at located
  obtain ⟨_, resolves⟩ := FileSystem.exists_resolves located
  exact .of_resolves resolves there (sameSteps_steps path)

theorem Leads.isDirectory_eq (h : Leads fs path dir) (allowed : refusal? path = none) :
    isDirectory fs path = true := by
  obtain ⟨mode, found⟩ := get?_of_isDirectoryAt h.there
  simp only [FileSystem.isDirectory, h.lookup_eq allowed found, Node.isDirectory]

theorem leads_of_isDirectory (h : isDirectory fs path = true) :
    refusal? path = none ∧ ∃ dir, Leads fs path dir := by
  unfold FileSystem.isDirectory at h
  split at h
  · rename_i dir x found
    exact ⟨refusal?_of_locate (locate_of_lookup found), dir, leads_of_lookup found h⟩
  · simp at h

/-! ## Where a path starts -/

theorem Resolves.isDirectoryAt {goal : Goal} {links : Nat} {here : Place} {segments : List Text}
    {followed : List Place} (h : Resolves fs goal links here segments followed place)
    (some : segments ≠ []) : fs.isDirectoryAt here = true := by
  cases h with
  | arrive walks => exact walks.isDirectoryAt some
  | follow walks => exact walks.isDirectoryAt some

theorem Leads.start (h : Leads fs path dir) :
    fs.isDirectoryAt (startOf fs.workDir path) = true := by
  obtain ⟨_, resolves⟩ := h.resolves
  by_cases none : Path.steps path = []
  · rw [none] at resolves
    cases resolves with
    | arrive walks =>
      cases walks
      exact h.there
    | follow walks => cases walks
  · exact resolves.isDirectoryAt none

theorem start_of_locate {goal : Goal} (h : locate fs goal path = .ok place) :
    fs.isDirectoryAt (startOf fs.workDir path) = true := by
  unfold locate at h
  split at h
  · simp at h
  · obtain ⟨_, resolves⟩ := FileSystem.exists_resolves h
    exact resolves.isDirectoryAt (Text.split_ne_nil '/' path)

/-! ## Growth -/

/-- `fs'` holds all that `fs` holds, and perhaps more directories. -/
structure Grown (fs fs' : FileSystem) : Prop where
  kept : Kept fs fs'
  added : ∀ q x, fs.get? q = none → fs'.get? q = some x → x.isDirectory = true
  workDir : fs'.workDir = fs.workDir

theorem Grown.refl (fs : FileSystem) : Grown fs fs :=
  ⟨fun _ _ h => h, fun q x none found => by simp [none] at found, rfl⟩

theorem Grown.trans (h : Grown fs fs') (h' : Grown fs' fs'') : Grown fs fs'' := by
  refine ⟨fun q x found => h'.kept q x (h.kept q x found), fun q x none found => ?_,
    h'.workDir.trans h.workDir⟩
  cases before : fs'.get? q with
  | none => exact h'.added q x before found
  | some y =>
    obtain rfl := Option.some.inj ((h'.kept q y before).symm.trans found)
    exact h.added q y none before

theorem Grown.preserved (h : Grown fs fs') : Preserved fs fs' :=
  ⟨h.kept.keepsDirectories, fun q _ found => h.kept q _ found, h.workDir⟩

theorem IsVacant.get?_eq_none (h : IsVacant fs place) : fs.get? place = none := by
  obtain ⟨_, _, _, _, _, free⟩ := h
  exact free

theorem IsVacant.get?_put (h : IsVacant fs place) (link : ∀ target, x ≠ .link target) (q : Place) :
    (fs.put place x).get? q = if q = place then some x else fs.get? q :=
  FileSystem.get?_put (h.admits fun target eq => absurd eq (link target)) q

theorem IsVacant.kept (h : IsVacant fs place) (link : ∀ target, x ≠ .link target) :
    Kept fs (fs.put place x) := by
  intro q y found
  have other : q ≠ place := by
    rintro rfl
    simp [h.get?_eq_none] at found
  rw [h.get?_put link, if_neg other, found]

theorem IsVacant.grown (h : IsVacant fs place) :
    Grown fs (fs.put place (.directory mode)) := by
  refine ⟨h.kept (by simp), fun q x none found => ?_, workDir_put ..⟩
  rw [h.get?_put (by simp)] at found
  split at found
  · obtain rfl := Option.some.inj found
    rfl
  · simp [none] at found

/-! ## One directory -/

theorem dropWhile_eq_replicate_append (ss : List Text) :
    ∃ n, ss = List.replicate n [] ++ ss.dropWhile (· = []) := by
  induction ss with
  | nil => exact ⟨0, rfl⟩
  | cons s ss ih =>
    by_cases empty : s = []
    · obtain ⟨n, eq⟩ := ih
      refine ⟨n + 1, ?_⟩
      rw [List.dropWhile_cons_of_pos (by simpa using empty), List.replicate_succ, List.cons_append,
        ← eq, empty]
    · exact ⟨0, by rw [List.dropWhile_cons_of_neg (by simpa using empty)]; rfl⟩

/-- The slashes at the end of a path are all that is left out for its entry. -/
theorem segments_eq_withoutEnd (path : Path) :
    ∃ n, Path.segments path = segmentsWithoutEnd path ++ List.replicate n [] := by
  obtain ⟨n, eq⟩ := dropWhile_eq_replicate_append (Path.segments path).reverse
  refine ⟨n, ?_⟩
  have reversed := congrArg List.reverse eq
  rwa [List.reverse_reverse, List.reverse_append, List.reverse_replicate] at reversed

theorem sameSteps_segmentsWithoutEnd (path : Path) :
    SameSteps (segmentsWithoutEnd path) (Path.steps path) := by
  obtain ⟨n, eq⟩ := segments_eq_withoutEnd path
  refine sameSteps_of_filter ?_
  rw [Path.steps, eq, List.filter_append]
  simp [Path.isIdle]

/-- A path of which only slashes are left starts at the root. -/
theorem isAbsolute_of_segmentsWithoutEnd (some : path ≠ []) (none : segmentsWithoutEnd path = []) :
    Path.isAbsolute path = true := by
  obtain ⟨n, eq⟩ := segments_eq_withoutEnd path
  rw [none, List.nil_append] at eq
  have more : n ≠ 0 := by
    rintro rfl
    exact Text.split_ne_nil '/' path eq
  rw [Path.isAbsolute_eq, eq, List.head?_replicate, if_neg more]
  simp [some]

theorem isVacant_of_locateEntry (h : locateEntry fs path = .ok place)
    (free : fs.get? place = none) : IsVacant fs place := by
  unfold locateEntry at h
  split at h
  · simp at h
  · rename_i allowed
    have proper := isLinkTarget_of_refusal? allowed
    simp only [isLinkTarget, Bool.and_eq_true, List.all_eq_true, decide_eq_true_eq] at proper
    obtain ⟨n, eq⟩ := segments_eq_withoutEnd path
    refine isVacant_of_resolve h (fun none => ?_) (fun s hs => ?_) free
    · have absolute := isAbsolute_of_segmentsWithoutEnd proper.1.1 none
      obtain ⟨root, found, _⟩ := fs.root_isDirectory
      rw [startOf, if_pos absolute, get?_of_mem found]
      simp
    · refine isPlain_of_mem_segments (fun nul => proper.1.2 _ nul rfl) ?_
      rw [eq]
      exact List.mem_append_left _ hs

/-- What a path leads to once a directory has been made at its end. -/
theorem leads_of_locateEntry (h : locateEntry fs path = .ok place) (vacant : IsVacant fs place) :
    refusal? path = none ∧ Leads (fs.put place (.directory mode)) path place := by
  unfold locateEntry at h
  split at h
  · simp at h
  · rename_i allowed
    obtain ⟨followed, resolves⟩ := exists_resolves h
    have grown : Grown fs (fs.put place (.directory mode)) := vacant.grown
    have found : (fs.put place (.directory mode)).get? place = some (.directory mode) := by
      rw [vacant.get?_put (by simp), if_pos rfl]
    have there := isDirectoryAt_of_get? found
    have same := resolves.frame grown.preserved.dirs (grown.preserved.followed resolves)
      (.directory there)
    rw [← grown.workDir] at same
    refine ⟨allowed, .of_resolves (same.node_of_entry ?_) there (sameSteps_segmentsWithoutEnd path)⟩
    simp [found]

/-- Where a path leads to a directory already, none can be made. -/
theorem Leads.not_isVacant (h : Leads fs path dir) (located : locateEntry fs path = .ok place) :
    ¬ IsVacant fs place := by
  intro vacant
  have grown : Grown fs (fs.put place (.directory 0)) := vacant.grown
  have made : Leads (fs.put place (.directory 0)) path place :=
    (leads_of_locateEntry located vacant).2
  have there := h.there
  rw [(h.preserved grown.preserved).unique made] at there
  simp [isDirectoryAt, vacant.get?_eq_none] at there

theorem Leads.start_of_steps_nil (steps : Path.steps path = [])
    (there : fs.isDirectoryAt (startOf fs.workDir path) = true) :
    Leads fs path (startOf fs.workDir path) :=
  ⟨⟨[], by rw [steps]; exact .arrive (.done _)⟩, there⟩

end FileSystem

namespace FileAction

open FileSystem

variable {fs fs' : FileSystem} {path : Path} {paths : List Path} {place dir : Place} {why : IoError}
  {α : Type}

/-- The file system behind an action, whether it was refused or not. -/
def after (x : FileAction α) (fs : FileSystem) : FileSystem :=
  match x fs with
  | .ok _ fs' => fs'
  | .error _ fs' => fs'

/-- A directory that is made stands at a place that was vacant. -/
theorem createDirectory_ok (h : createDirectory path fs = .ok () fs') :
    ∃ place, locateEntry fs path = .ok place ∧ IsVacant fs place
      ∧ fs' = fs.put place (.directory (inheritedMode fs place)) := by
  unfold createDirectory at h
  split at h
  · simp at h
  · rename_i place located
    split at h
    · simp at h
    · rename_i free
      refine ⟨place, located, isVacant_of_locateEntry located free, ?_⟩
      simpa using h.symm

theorem createDirectory_error (h : createDirectory path fs = .error why fs') : fs' = fs := by
  unfold createDirectory at h
  split at h
  · exact (EStateM.Result.error.inj h).2.symm
  · split at h
    · exact (EStateM.Result.error.inj h).2.symm
    · simp at h

/-! ## All directories of a path -/

/-- Make a directory. A path that already is one will do. -/
def ensureDirectory (path : Path) : FileAction Unit := fun fs =>
  match createDirectory path fs with
  | .ok _ fs => .ok () fs
  | .error why fs => if isDirectory fs path then .ok () fs else .error why fs

theorem ensureDirectory_ok (h : ensureDirectory path fs = .ok () fs') :
    createDirectory path fs = .ok () fs' ∨ isDirectory fs path = true ∧ fs' = fs := by
  unfold ensureDirectory at h
  cases made : createDirectory path fs with
  | ok _ fs₁ =>
    rw [made] at h
    exact .inl h
  | error why fs₁ =>
    obtain rfl := createDirectory_error made
    rw [made] at h
    dsimp only at h
    split at h
    · rename_i there
      exact .inr ⟨there, (EStateM.Result.ok.inj h).2.symm⟩
    · simp at h

theorem ensureDirectory_error (h : ensureDirectory path fs = .error why fs') :
    createDirectory path fs = .error why fs ∧ isDirectory fs path = false ∧ fs' = fs := by
  unfold ensureDirectory at h
  cases made : createDirectory path fs with
  | ok _ fs₁ => simp [made] at h
  | error why fs₁ =>
    obtain rfl := createDirectory_error made
    rw [made] at h
    dsimp only at h
    split at h
    · simp at h
    · rename_i none
      obtain ⟨rfl, rfl⟩ := EStateM.Result.error.inj h
      exact ⟨rfl, by simpa using none, rfl⟩

theorem createAll_made {above : List Path} (first : createDirectory path fs = .ok () fs') :
    createAll (path :: above) fs = .ok () fs' := by
  simp only [createAll, first]

theorem createAll_missing {above : List Path}
    (first : createDirectory path fs = .error .notFound fs') :
    createAll (path :: above) fs = (createAll above >>= fun _ => ensureDirectory path) fs := by
  obtain rfl := createDirectory_error first
  cases others : createAll above fs' with
  | error why fs₁ => simp only [createAll, first, others, bind_of_error others]
  | ok _ fs₁ =>
    simp only [createAll, first, others, bind_of_ok others]
    rfl

/-- The last directory is made at once, or those above it are made before. -/
theorem createAll_cons (path : Path) (above : List Path) (fs : FileSystem) :
    createAll (path :: above) fs = ensureDirectory path fs
      ∨ createAll (path :: above) fs
        = (createAll above >>= fun _ => ensureDirectory path) fs := by
  cases first : createDirectory path fs with
  | ok _ fs₁ =>
    left
    simp only [createAll, ensureDirectory, first]
  | error why fs₁ =>
    by_cases missing : why = .notFound
    · subst missing
      exact .inr (createAll_missing first)
    · left
      simp only [createAll, ensureDirectory, first]

/-- When all directories of a path could be made, the last one was made or was there, and
the others had been made unless nothing had to be. -/
theorem createAll_cons_ok {above : List Path} (h : createAll (path :: above) fs = .ok () fs') :
    ∃ fs₁, (fs₁ = fs ∨ createAll above fs = .ok () fs₁)
      ∧ (createDirectory path fs₁ = .ok () fs' ∨ isDirectory fs₁ path = true ∧ fs' = fs₁) := by
  rcases createAll_cons path above fs with once | later
  · exact ⟨fs, .inl rfl, ensureDirectory_ok (once.symm.trans h)⟩
  · obtain ⟨_, fs₁, made, last⟩ := bind_ok_iff.1 (later.symm.trans h)
    exact ⟨fs₁, .inr made, ensureDirectory_ok last⟩

/-- When not all directories of a path could be made, one of the others was refused, or the
last one was and is not there. -/
theorem createAll_cons_error {above : List Path}
    (h : createAll (path :: above) fs = .error why fs') :
    createAll above fs = .error why fs'
      ∨ (fs' = fs ∨ createAll above fs = .ok () fs')
        ∧ createDirectory path fs' = .error why fs' ∧ isDirectory fs' path = false := by
  rcases createAll_cons path above fs with once | later
  · obtain ⟨refused, none, rfl⟩ := ensureDirectory_error (once.symm.trans h)
    exact .inr ⟨.inl rfl, refused, none⟩
  · obtain refused | ⟨_, fs₁, made, last⟩ := bind_error_iff.1 (later.symm.trans h)
    · exact .inl refused
    · obtain ⟨refused, none, rfl⟩ := ensureDirectory_error last
      exact .inr ⟨.inr made, refused, none⟩

/-- What every single directory that may be made preserves, making all of them preserves. -/
theorem createAll_preserves {P : FileSystem → Prop} (h : P fs)
    (step : ∀ fs path place, path ∈ paths → P fs → locateEntry fs path = .ok place →
      IsVacant fs place → P (fs.put place (.directory (inheritedMode fs place)))) :
    P (after (createAll paths) fs) := by
  induction paths generalizing fs with
  | nil => exact h
  | cons path above ih =>
    have others := ih h fun fs path place mem => step fs path place (List.mem_cons_of_mem _ mem)
    unfold after at others ⊢
    cases run : createAll (path :: above) fs with
    | ok _ fs' =>
      obtain ⟨fs₁, start, last⟩ := createAll_cons_ok run
      have before : P fs₁ := by
        rcases start with rfl | made
        · exact h
        · rwa [made] at others
      rcases last with made | ⟨_, rfl⟩
      · obtain ⟨place, located, vacant, rfl⟩ := createDirectory_ok made
        exact step fs₁ path place List.mem_cons_self before located vacant
      · exact before
    | error why fs' =>
      rcases createAll_cons_error run with refused | ⟨rfl | made, _⟩
      · rwa [refused] at others
      · exact h
      · rwa [made] at others

/-- Making directories only adds directories, and one of the paths leads to each of them. -/
theorem grown_createAll (paths : List Path) (fs : FileSystem) :
    Grown fs (after (createAll paths) fs)
      ∧ ∀ q x, fs.get? q = none → (after (createAll paths) fs).get? q = some x →
        ∃ path ∈ paths, refusal? path = none ∧ Leads (after (createAll paths) fs) path q := by
  refine createAll_preserves
    (P := fun fs' => Grown fs fs' ∧ ∀ q x, fs.get? q = none → fs'.get? q = some x →
      ∃ path ∈ paths, refusal? path = none ∧ Leads fs' path q)
    ⟨.refl fs, fun q x none found => by simp [none] at found⟩ ?_
  rintro fs' path place mem ⟨grown, known⟩ located vacant
  have more : Grown fs' (fs'.put place (.directory (inheritedMode fs' place))) := vacant.grown
  refine ⟨grown.trans more, fun q x none found => ?_⟩
  by_cases this : q = place
  · subst this
    obtain ⟨allowed, leads⟩ := leads_of_locateEntry located vacant
    exact ⟨path, mem, allowed, leads⟩
  · rw [vacant.get?_put (by simp), if_neg this] at found
    obtain ⟨path', mem', allowed, leads⟩ := known q x none found
    exact ⟨path', mem', allowed, leads.preserved more.preserved⟩

theorem grown_createDirectories (path : Path) (fs : FileSystem) :
    Grown fs (after (createDirectories path) fs) :=
  (grown_createAll _ fs).1

theorem after_ok {x : FileAction α} {a : α} (h : x fs = .ok a fs') : after x fs = fs' := by
  simp only [after, h]

theorem after_error {x : FileAction α} (h : x fs = .error why fs') : after x fs = fs' := by
  simp only [after, h]

theorem after_bind_of_ok {β : Type} {x : FileAction α} {f : α → FileAction β} {a : α}
    (h : x fs = .ok a fs') : after (x >>= f) fs = after (f a) fs' := by
  rw [after, bind_of_ok h, after]

theorem after_bind_of_error {β : Type} {x : FileAction α} {f : α → FileAction β}
    (h : x fs = .error why fs') : after (x >>= f) fs = fs' :=
  after_error (bind_of_error h)

/-- Whether the action is refused or not, it keeps what it starts with. -/
def Keeps (P : FileSystem → Prop) (x : FileAction α) : Prop := ∀ fs, P fs → P (after x fs)

variable {P : FileSystem → Prop}

theorem Keeps.ok {x : FileAction α} {a : α} (keeps : Keeps P x) (h : x fs = .ok a fs')
    (start : P fs) : P fs' :=
  after_ok h ▸ keeps fs start

theorem Keeps.bind {β : Type} {x : FileAction α} {f : α → FileAction β} (first : Keeps P x)
    (more : ∀ a, Keeps P (f a)) : Keeps P (x >>= f) := by
  intro fs start
  cases made : x fs with
  | ok a fs₁ =>
    rw [after_bind_of_ok made]
    exact more a fs₁ (first.ok made start)
  | error why fs₁ =>
    rw [after_bind_of_error made, ← after_error made]
    exact first fs start

/-- An action that changes nothing when it is refused need only be looked at when it is not. -/
theorem Keeps.of_ok {x : FileAction α}
    (refused : ∀ fs why fs', x fs = .error why fs' → fs' = fs)
    (ok : ∀ fs a fs', P fs → x fs = .ok a fs' → P fs') : Keeps P x := by
  intro fs start
  cases run : x fs with
  | ok a fs' => exact after_ok run ▸ ok fs a fs' start run
  | error why fs' => rwa [after_error run, refused fs why fs' run]

/-- When all directories of a path could be made, the path leads to one. -/
theorem leads_of_createAll {above : List Path} (h : createAll (path :: above) fs = .ok () fs') :
    refusal? path = none ∧ ∃ dir, Leads fs' path dir := by
  obtain ⟨fs₁, _, made | ⟨there, rfl⟩⟩ := createAll_cons_ok h
  · obtain ⟨place, located, vacant, rfl⟩ := createDirectory_ok made
    obtain ⟨allowed, leads⟩ := leads_of_locateEntry located vacant
    exact ⟨allowed, place, leads⟩
  · exact leads_of_isDirectory there

theorem ancestors_eq_cons (some : ancestors path ≠ []) :
    ∃ above, ancestors path = path :: above := by
  by_cases none : Path.components path = [] ∨ Path.components path = [.root]
  · exact absurd (if_pos none) some
  · exact ⟨_, if_neg none⟩

theorem ancestors_ne_nil_of_steps (some : Path.steps path ≠ []) : ancestors path ≠ [] := by
  intro none
  have chain := Path.chain_ancestors path
  rw [none] at chain
  generalize Path.steps path = ss at chain some
  cases chain
  exact some rfl

/-- When the directories of a path with a step could be made, the path leads to one. -/
theorem leads_of_createDirectories (h : createDirectories path fs = .ok () fs')
    (some : ancestors path ≠ []) : refusal? path = none ∧ ∃ dir, Leads fs' path dir := by
  obtain ⟨above, list⟩ := ancestors_eq_cons some
  rw [createDirectories, list] at h
  exact leads_of_createAll h

/-- Where relative paths start at no directory, none is made under them. -/
theorem after_createAll_of_no_start (relative : ∀ path ∈ paths, Path.isAbsolute path = false)
    (noStart : fs.isDirectoryAt fs.workDir = false) : after (createAll paths) fs = fs := by
  refine createAll_preserves (P := (· = fs)) rfl ?_
  rintro fs path place mem rfl located vacant
  exfalso
  have starts : startOf fs.workDir path = fs.workDir := by
    rw [startOf, if_neg (by simp [relative path mem])]
  unfold locateEntry at located
  split at located
  · simp at located
  · obtain ⟨_, resolves⟩ := exists_resolves located
    have some : segmentsWithoutEnd path ≠ [] := by
      intro none
      have given : path ≠ [] := by
        rintro rfl
        simp [refusal?] at *
      simpa [relative path mem] using isAbsolute_of_segmentsWithoutEnd given none
    have start := resolves.isDirectoryAt some
    rw [starts, noStart] at start
    simp at start

/-! ## Nothing new behind what is new -/

private theorem childNames_put {x : Node} (vacant : IsVacant fs place)
    (link : ∀ target, x ≠ .link target) : (fs.put place x).childNames place = [] := by
  apply List.eq_nil_iff_forall_not_mem.2
  intro name mem
  obtain ⟨y, found⟩ := mem_childNames.1 mem
  rw [vacant.get?_put link, if_neg (List.cons_ne_self name place)] at found
  have there := isDirectoryAt_of_get?_cons found
  simp [isDirectoryAt, vacant.get?_eq_none] at there

/-- One step down from an empty directory there is none. -/
private theorem not_leads_of_childNames {parent : Path} (step : Text) (up : Leads fs parent dir)
    (empty : fs.childNames dir = []) (kind : Path.isAbsolute path = Path.isAbsolute parent)
    (steps : Path.steps path = Path.steps parent ++ [step]) (notUp : step ≠ ['.', '.'])
    (leads : Leads fs path place) : False := by
  have mem : step ∈ Path.steps path := steps ▸ List.mem_append_right _ List.mem_cons_self
  have notIdle := Path.not_idle_of_mem_steps mem
  have nonempty : step ≠ [] := (Path.isWord_of_mem_steps mem).1
  have vacant : fs.get? (.text step :: dir) = none := by
    cases found : fs.get? (.text step :: dir) with
    | none => rfl
    | some x => simpa [empty] using mem_childNames.2 ⟨x, found⟩
  obtain ⟨_, resolves⟩ := up.resolves
  obtain ⟨left, behind⟩ := resolves.append up.there
  obtain ⟨_, whole⟩ := leads.resolves
  have whole := whole.resolve_eq
  rw [steps, startOf, kind, ← startOf, behind .node [step] ⟨step, List.mem_cons_self, nonempty⟩]
    at whole
  obtain ⟨_, last⟩ := exists_resolves whole
  cases last with
  | arrive walks =>
    cases walks with
    | idle _ none => simp [none] at notIdle
    | up => exact notUp rfl
    | vacant _ _ free => simpa [isDirectoryAt, free] using leads.there
    | entry _ _ _ asked => simp at asked
    | on _ _ found => simp [vacant] at found
  | follow walks =>
    cases walks with
    | idle _ none => simp [none] at notIdle
    | up => exact notUp rfl
    | follow _ _ found => simp [vacant] at found
    | on _ _ found => simp [vacant] at found

/-- A directory that is made is new and empty. -/
private theorem createDirectory_fresh {fs₁ : FileSystem} (kept : Kept fs fs₁)
    (made : createDirectory path fs₁ = .ok () fs') :
    ∃ dir, Leads fs' path dir ∧ fs.get? dir = none ∧ fs'.childNames dir = [] := by
  obtain ⟨place, located, vacant, rfl⟩ := createDirectory_ok made
  refine ⟨place, (leads_of_locateEntry located vacant).2, ?_, childNames_put vacant (by simp)⟩
  cases found : fs.get? place with
  | none => rfl
  | some x => simpa [vacant.get?_eq_none] using kept place x found

/-- If the path before the last step leads to an empty directory, then there was no step. -/
private theorem eq_nil_of_childNames {parent : Path} (up : Leads fs parent dir)
    (empty : fs.childNames dir = []) (kind : Path.isAbsolute path = Path.isAbsolute parent)
    (front : Path.steps parent = (Path.steps path).dropLast)
    (noUp : ['.', '.'] ∉ Path.steps path) (leads : Leads fs path place) :
    Path.steps path = [] := by
  cases last : (Path.steps path).getLast? with
  | none => exact List.getLast?_eq_none_iff.1 last
  | some step =>
    exfalso
    have parts : Path.steps path = Path.steps parent ++ [step] := by
      obtain ⟨before, eq⟩ := List.getLast?_eq_some_iff.1 last
      rw [front, eq, List.dropLast_concat]
    refine not_leads_of_childNames step up empty kind parts ?_ leads
    rintro rfl
    exact noUp (parts ▸ List.mem_append_right _ List.mem_cons_self)

/-- Along a chain without `..` either nothing has to be made, or the directory at its end
is new and empty. -/
theorem createAll_fresh {absolute : Bool} {ss : List Text}
    (chain : Path.Chain absolute paths ss) (noUp : ['.', '.'] ∉ ss)
    (h : createAll paths fs = .ok () fs') : fs' = fs ∨ ∃ path dir, Path.isAbsolute path = absolute
      ∧ Path.steps path = ss ∧ Leads fs' path dir ∧ fs.get? dir = none
      ∧ fs'.childNames dir = [] := by
  induction chain generalizing fs' with
  | start =>
    left
    simpa [createAll] using h.symm
  | @step path above ss kind steps more ih =>
    obtain ⟨fs₁, start, last⟩ := createAll_cons_ok h
    have kept : Kept fs fs₁ := by
      rcases start with rfl | up
      · exact (Grown.refl _).kept
      · exact after_ok up ▸ (grown_createAll above fs).1.kept
    rcases last with made | ⟨there, rfl⟩
    · obtain ⟨dir, fresh⟩ := createDirectory_fresh kept made
      exact .inr ⟨path, dir, kind, steps, fresh⟩
    rcases start with rfl | up
    · exact .inl rfl
    -- the path was there when its parent had been made, so that is not new
    rcases ih (fun mem => noUp ((List.dropLast_sublist ss).subset mem)) up with
      rfl | ⟨parent, dir, kind', steps', up, free, empty⟩
    · exact .inl rfl
    · obtain ⟨_, place, leads⟩ := leads_of_isDirectory there
      subst steps
      have nil := eq_nil_of_childNames up empty (kind.trans kind'.symm) steps' noUp leads
      refine .inr ⟨parent, dir, kind', ?_, up, free, empty⟩
      rw [steps', nil, List.dropLast_nil]

/-- Where no step leads up, nothing is made, or the directory is new and empty. -/
theorem createDirectories_fresh (noUp : ['.', '.'] ∉ Path.segments path)
    (made : createDirectories path fs = .ok () fs') (leads : Leads fs' path dir) :
    fs' = fs ∨ fs.get? dir = none ∧ fs'.childNames dir = [] := by
  have plain : ['.', '.'] ∉ Path.steps path := fun mem => noUp (List.mem_filter.1 mem).1
  rcases createAll_fresh (Path.chain_ancestors path) plain made with
    same | ⟨other, dir', kind, steps, fresh, free, empty⟩
  · exact .inl same
  · obtain rfl := (fresh.congr kind.symm steps.symm).unique leads
    exact .inr ⟨free, empty⟩

end FileAction

end Scaffold
