import Scaffold.Proofs.FileSystem.Spares

/-!
# Files that are staged

A file can be moved to its place in one step. It can also be made under another path first and
then be moved from there; what cannot be moved is taken away again. Both do the same
as long as the other path leads to nothing, and nothing is left there in the end.

The entry at the end of a path is found without a look at what stands there. So it does not
matter to its place that a file is put somewhere, and the paths of two names in one directory
are refused alike.
-/

namespace Scaffold

namespace FileSystem

variable {fs fs' : FileSystem} {here place config q : Place} {path staged : Path} {s s' : Text}
  {segments : List Text} {followed : List Place} {w : Walk} {links : Nat} {content : Octets}
  {mode : Mode}

/-! ## Entries where a file is put -/

section

variable (put : IsPut fs config (.file content mode) fs') (noDir : fs.isDirectoryAt config = false)

include put noDir

/-- A walk to an entry that goes where a file has been put has gone there before: it passes no
file, and at its end it does not matter what stands there. -/
private theorem IsPut.walks_before (h : Walks fs' .entry here segments w) :
    Walks fs .entry here segments w := by
  have wasDir {q : Place} (dir : fs'.isDirectoryAt q = true) : fs.isDirectoryAt q = true := by
    have other : q ≠ config := by
      rintro rfl
      simp [isDirectoryAt, put.self, Node.isDirectory] at dir
    rwa [isDirectoryAt, put.other other] at dir
  have wasLink {q : Place} {target : Path} (found : fs'.get? q = some (.link target)) :
      fs.get? q = some (.link target) := by
    have other : q ≠ config := by
      rintro rfl
      simp [put.self] at found
    rwa [put.other other] at found
  induction h with
  | done here => exact .done here
  | idle dir none _ ih => exact .idle (wasDir dir) none ih
  | up dir _ ih => exact .up (wasDir dir) ih
  | @vacant here segment rest dir name free last =>
    have other : .text segment :: here ≠ config := by
      rintro rfl
      simp [put.self] at free
    exact .vacant (wasDir dir) name ((put.other other).symm.trans free) last
  | entry dir name found asked => exact .entry (wasDir dir) name (wasLink found) asked
  | follow dir name found asked => exact .follow (wasDir dir) name (wasLink found) asked
  | @on here segment rest x w dir name found notLink more ih =>
    by_cases this : .text segment :: here = config
    · -- the file that was put is the end of the way
      have last : rest = [] := by
        refine Decidable.byContradiction fun some => ?_
        have dir := more.isDirectoryAt some
        simp [isDirectoryAt, this, put.self, Node.isDirectory] at dir
      subst last
      cases more
      exact walks_of_walk (walk_entry (wasDir dir) name) (by simp)
    · exact .on (wasDir dir) name ((put.other this).symm.trans found) notLink ih

private theorem IsPut.resolves_before (h : Resolves fs' .entry links here segments followed place) :
    Resolves fs .entry links here segments followed place := by
  induction h with
  | arrive walks => exact .arrive (put.walks_before noDir walks)
  | follow walks _ ih => exact .follow (put.walks_before noDir walks) ih

/-- An entry that is found once a file has been put somewhere was found at the same place before. -/
theorem IsPut.locateEntry_before (located : locateEntry fs' path = .ok q) :
    locateEntry fs path = .ok q := by
  unfold locateEntry at located ⊢
  split at located
  · simp at located
  · obtain ⟨_, resolves⟩ := exists_resolves located
    rw [put.workDir] at resolves
    exact (put.resolves_before noDir resolves).resolve_eq

end

/-! ## Two names in one directory -/

/-- Only the last segment tells the walks to two names apart. -/
private theorem walk_concat (name : IsName .entry s []) (name' : IsName .entry s' [])
    (front : List Text) :
    (∃ why, walk fs .entry here (front ++ [s]) = .blocked why
        ∧ walk fs .entry here (front ++ [s']) = .blocked why)
      ∨ (∃ dir, walk fs .entry here (front ++ [s]) = .arrived (.text s :: dir)
        ∧ walk fs .entry here (front ++ [s']) = .arrived (.text s' :: dir))
      ∨ ∃ target link rest, walk fs .entry here (front ++ [s]) = .followed target link (rest ++ [s])
        ∧ walk fs .entry here (front ++ [s']) = .followed target link (rest ++ [s']) := by
  have some {t : Text} (name : IsName .entry t []) : t ≠ [] := by
    rintro rfl
    exact absurd name.notIdle (by decide)
  induction front generalizing here with
  | nil =>
    by_cases dir : fs.isDirectoryAt here = true
    · exact .inr (.inl ⟨here, walk_entry dir name, walk_entry dir name'⟩)
    · left
      cases found : fs.get? here with
      | none => exact ⟨.notFound, by simp [walk, found], by simp [walk, found]⟩
      | some x =>
        cases x with
        | directory mode => exact absurd (isDirectoryAt_of_get? found) dir
        | file content mode => exact ⟨.notADirectory, by simp [walk, found], by simp [walk, found]⟩
        | link target => exact ⟨.notADirectory, by simp [walk, found], by simp [walk, found]⟩
  | cons a front ih =>
    simp only [List.cons_append, walk]
    cases fs.get? here with
    | none => exact .inl ⟨_, rfl, rfl⟩
    | some x =>
      cases x with
      | file => exact .inl ⟨_, rfl, rfl⟩
      | link => exact .inl ⟨_, rfl, rfl⟩
      | directory =>
        by_cases idle : Path.isIdle a = true
        · simpa only [idle, if_true] using ih
        by_cases up : a = ['.', '.']
        · subst up
          simpa only [idle, Bool.false_eq_true, if_true, if_false] using ih
        by_cases fits : Text.fits maxNameLength a = true
        · cases fs.get? (.text a :: here) with
          | none => simp [idle, up, fits, some name, some name']
          | some y =>
            cases y with
            | link target =>
              refine .inr (.inr ⟨target, .text a :: here, front, ?_⟩)
              simp [idle, up, fits]
            | file => simpa [idle, up, fits] using ih
            | directory => simpa [idle, up, fits] using ih
        · simp [idle, up, fits]

private theorem resolve_concat (name : IsName .entry s []) (name' : IsName .entry s' [])
    (front : List Text) :
    (∃ why, resolve fs .entry links here (front ++ [s]) = .error why
        ∧ resolve fs .entry links here (front ++ [s']) = .error why)
      ∨ ∃ dir, resolve fs .entry links here (front ++ [s]) = .ok (.text s :: dir)
        ∧ resolve fs .entry links here (front ++ [s']) = .ok (.text s' :: dir) := by
  induction links generalizing here front with
  | zero =>
    rcases walk_concat name name' front with ⟨why, walked, walked'⟩ | ⟨dir, walked, walked'⟩
      | ⟨target, link, rest, walked, walked'⟩
    · exact .inl ⟨why, by rw [resolve, walked], by rw [resolve, walked']⟩
    · exact .inr ⟨dir, resolve_of_walk_arrived walked, resolve_of_walk_arrived walked'⟩
    · exact .inl ⟨.filesystemLoop, by rw [resolve, walked], by rw [resolve, walked']⟩
  | succ links ih =>
    rcases walk_concat name name' front with ⟨why, walked, walked'⟩ | ⟨dir, walked, walked'⟩
      | ⟨target, link, rest, walked, walked'⟩
    · exact .inl ⟨why, by rw [resolve, walked], by rw [resolve, walked']⟩
    · exact .inr ⟨dir, resolve_of_walk_arrived walked, resolve_of_walk_arrived walked'⟩
    · rw [resolve_of_walk_followed walked, resolve_of_walk_followed walked', ← List.append_assoc,
        ← List.append_assoc]
      exact ih _

/-- The paths of two names in one directory are refused for the same reason, or they lead to
entries of one directory. -/
theorem locate_entry_concat {path' : Path} {front : List Text} (name : IsName .entry s [])
    (name' : IsName .entry s' []) (segs : Path.segments path = front ++ [s])
    (segs' : Path.segments path' = front ++ [s']) (kind : Path.isAbsolute path' = Path.isAbsolute path)
    (allowed : refusal? path' = refusal? path) :
    (∃ why, locate fs .entry path = .error why ∧ locate fs .entry path' = .error why)
      ∨ ∃ dir, locate fs .entry path = .ok (.text s :: dir)
        ∧ locate fs .entry path' = .ok (.text s' :: dir) := by
  have start : startOf fs.workDir path' = startOf fs.workDir path := by rw [startOf, kind, startOf]
  simp only [locate, allowed, segs, segs', start]
  cases refusal? path with
  | some why => exact .inl ⟨why, rfl, rfl⟩
  | none => exact resolve_concat name name' front

/-! ## A file that is made and taken away -/

theorem eq_of_nodes (nodes : fs'.nodes = fs.nodes) (workDir : fs'.workDir = fs.workDir) :
    fs' = fs := by
  cases fs
  cases fs'
  simp only at nodes workDir
  subst nodes workDir
  rfl

/-- What is put where nothing stands and taken away again leaves no trace. -/
theorem IsVacant.remove_put {x : Node} (vacant : IsVacant fs place)
    (link : ∀ target, x ≠ .link target) : (fs.put place x).remove place = fs := by
  have free := vacant.get?_eq_none
  have admitted : fs.admits place x = true := vacant.admits fun target eq => absurd eq (link target)
  have proper : place ≠ [] := by
    rintro rfl
    obtain ⟨root, found, _⟩ := fs.root_isDirectory
    simp [get?_of_mem found] at free
  have noDir : fs.isDirectoryAt place = false := by simp [isDirectoryAt, free]
  have away : ∀ e ∈ fs.nodes, ¬ place <:+ e.1 := by
    rintro e mem ⟨names, behind⟩
    have found : fs.get? e.1 = some e.2 := get?_of_mem mem
    rw [← behind] at found
    by_cases none : names = []
    · simp [none, free] at found
    · simp [get?_below_of_childNames (childNames_eq_nil noDir) ⟨names, none, rfl⟩] at found
  have others : fs.nodes.filter (fun e => !Place.isSame e.1 place) = fs.nodes := by
    refine List.filter_eq_self.2 fun e mem => ?_
    have other : e.1 ≠ place := fun same => away e mem (same ▸ List.suffix_rfl)
    simp [other]
  have kept : fs.nodes.filter (fun e => !place.isSuffixOf e.1) = fs.nodes := by
    refine List.filter_eq_self.2 fun e mem => ?_
    rw [Bool.not_eq_true', ← Bool.not_eq_true, List.isSuffixOf_iff_suffix]
    exact away e mem
  have nodes : (fs.put place x).nodes = (place, x) :: fs.nodes := by
    rw [put, dif_pos admitted]
    exact congrArg _ others
  refine eq_of_nodes ?_ (by simp)
  rw [remove, dif_neg proper]
  change (fs.put place x).nodes.filter _ = _
  rw [nodes, List.filter_cons_of_neg (by simp), kept]

end FileSystem

namespace FileAction

open FileSystem

variable {fs fs' : FileSystem} {place : Place} {path staged : Path} {content : Octets} {mode : Mode}

/-! ## Staging -/

/-- Make a new file with this content and mode. What stands under the path already is left as
it is, be it a link, and the file is not made. -/
def createFile (path : Path) (content : Octets) (mode : Mode) : FileAction Place := fun fs =>
  match locate fs .entry path with
  | .error why => .error why fs
  | .ok place =>
    match fs.get? place with
    | some _ => .error .alreadyExists fs
    | none => .ok place (fs.put place (.file content mode))

/-- Move a file, in the stead of a file or a link that may stand under the other path. -/
def moveFile (path target : Path) : FileAction Place := fun fs =>
  match locate fs .entry path, locate fs .entry target with
  | .error why, _ => .error why fs
  | _, .error why => .error why fs
  | .ok source, .ok place =>
    match fs.get? source, fs.get? place with
    | some (.file ..), some (.directory _) => .error .isADirectory fs
    | some (.file content mode), _ => .ok place ((fs.remove source).put place (.file content mode))
    | _, _ => .error .notFound fs

/-- Make a file under one path and move it to another. If it cannot be moved, it is taken away
again, as far as that is possible. -/
def stageFile (staged path : Path) (content : Octets) (mode : Mode) : FileAction Place := fun fs =>
  match createFile staged content mode fs with
  | .error why fs => .error why fs
  | .ok _ fs =>
    match moveFile staged path fs with
    | .ok place fs => .ok place fs
    | .error why fs => .error why (after (removeFile staged) fs)

theorem stageFile_error {why : IoError} (h : locate fs .entry staged = .error why) :
    stageFile staged path content mode fs = .error why fs := by
  simp only [stageFile, createFile, h]

private theorem createFile_of_free (content : Octets) (mode : Mode)
    (located : locate fs .entry path = .ok place) (free : fs.get? place = none) :
    ∃ fs', createFile path content mode fs = .ok place fs'
      ∧ IsPut fs place (.file content mode) fs' ∧ fs'.remove place = fs := by
  have vacant := isVacant_of_locate located free
  refine ⟨_, ?_, vacant.isPut (by simp), vacant.remove_put (by simp)⟩
  simp only [createFile, located, free]

/-- A file that is staged where nothing stands is moved to its place or refused as if it were
moved there in one step, and that is all that is done to the files. -/
theorem stageFile_eq (located : locate fs .entry staged = .ok place) (free : fs.get? place = none)
    (noSlash : (Path.segments staged).getLast? ≠ some [])
    (same : ∀ fs', Preserved fs fs' → locate fs' .entry path = locate fs .entry path)
    (other : locate fs .entry path ≠ .ok place) :
    stageFile staged path content mode fs = replaceFile path content mode fs := by
  obtain ⟨fs₁, made, put, gone⟩ := createFile_of_free content mode located free
  have there : Reaches fs₁ .entry staged place := (put.spares_of_free free).reaches located (by simp)
    (.file put.self (.inr (.inr ⟨rfl, noSlash⟩)))
  have led : locate fs₁ .entry path = locate fs .entry path :=
    same _ (put.preserved (by simp [isDirectoryAt, free]) (by simp [free]))
  -- what cannot be moved is found where it was made
  have unmoved {why : IoError} (refused : moveFile staged path fs₁ = .error why fs₁) :
      stageFile staged path content mode fs = .error why fs := by
    have taken := removeFile_of_file there.located put.self
    simp only [stageFile, made, refused, after_ok taken, gone]
  unfold replaceFile
  cases target : locate fs .entry path with
  | error why =>
    rw [target] at led
    exact unmoved (by simp only [moveFile, there.located, led])
  | ok config =>
    rw [target] at led
    have before := put.other fun this : config = place => other (this ▸ target)
    cases found : fs.get? config with
    | none => simp only [stageFile, made, moveFile, there.located, led, put.self, before, found, gone]
    | some x =>
      cases x with
      | directory =>
        have refused : moveFile staged path fs₁ = .error .isADirectory fs₁ := by
          simp only [moveFile, there.located, led, put.self, before, found]
        rw [unmoved refused]
        simp only [found]
      | file =>
        simp only [stageFile, made, moveFile, there.located, led, put.self, before, found, gone]
      | link =>
        simp only [stageFile, made, moveFile, there.located, led, put.self, before, found, gone]

end FileAction

end Scaffold
