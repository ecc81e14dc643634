import Scaffold.Proofs.Action
import Scaffold.Proofs.FileSystem.Directories

/-!
# Changing one place

Where a node stands, another one of its kind may stand instead, and where nothing stands
at the end of a path, any node may. What the single actions do is said by how the file
system looks afterwards.
-/

namespace Scaffold

namespace FileSystem

variable {fs fs' : FileSystem} {place dir q : Place} {path : Path} {x y : Node}

private theorem isProper_change {place : Place} {x y : Node} (proper : isProper (place, x) = true)
    (link : ∀ target, y = .link target → x = .link target) : isProper (place, y) = true := by
  cases y with
  | link target => rwa [link target rfl] at proper
  | file content mode =>
    simp only [isProper, Bool.and_eq_true] at proper ⊢
    exact ⟨proper.1, trivial⟩
  | directory mode =>
    simp only [isProper, Bool.and_eq_true] at proper ⊢
    exact ⟨proper.1, trivial⟩

theorem childNames_eq_nil (h : fs.isDirectoryAt place = false) : fs.childNames place = [] := by
  apply List.eq_nil_iff_forall_not_mem.2
  intro name mem
  obtain ⟨x, found⟩ := mem_childNames.1 mem
  simp [isDirectoryAt_of_get?_cons found] at h

/-- The place lies somewhere below the directory. -/
def Below (dir q : Place) : Prop := ∃ names, names ≠ [] ∧ q = names ++ dir

theorem below_iff : Below dir q ↔ dir <:+ q ∧ q ≠ dir := by
  constructor
  · rintro ⟨names, some, rfl⟩
    exact ⟨List.suffix_append _ _, by simpa using some⟩
  · rintro ⟨⟨names, rfl⟩, other⟩
    exact ⟨names, by simpa using other, rfl⟩

instance : Decidable (Below dir q) := decidable_of_iff' _ below_iff

theorem Below.of_cons {name : Name} (h : Below (name :: dir) q) : Below dir q := by
  obtain ⟨names, some, rfl⟩ := h
  exact ⟨names ++ [name], by simp, by simp⟩

theorem Below.trans {dir' : Place} (h : Below dir dir') (h' : Below dir' q) : Below dir q := by
  obtain ⟨names, some, rfl⟩ := h
  obtain ⟨names', _, rfl⟩ := h'
  exact ⟨names' ++ names, by simp [some], (List.append_assoc ..).symm⟩

theorem below_cons (name : Name) (dir : Place) : Below dir (name :: dir) :=
  ⟨[name], by simp, rfl⟩

/-- Nothing stands below a directory without contents. -/
theorem get?_below_of_childNames (empty : fs.childNames dir = []) (below : Below dir q) :
    fs.get? q = none := by
  obtain ⟨names, some, rfl⟩ := below
  induction names with
  | nil => exact absurd rfl some
  | cons name names ih =>
    cases found : fs.get? (name :: names ++ dir) with
    | none => rfl
    | some x =>
      by_cases direct : names = []
      · subst direct
        simpa [empty] using mem_childNames.2 ⟨x, found⟩
      · have above := isDirectoryAt_of_get?_cons found
        simp [isDirectoryAt, ih direct] at above

/-- Where a node stands, another one may be put, a directory only for a directory. -/
theorem admits_of_get? (found : fs.get? place = some x) (kind : y.isDirectory = x.isDirectory)
    (link : ∀ target, y = .link target → x = .link target) : fs.admits place y = true := by
  have proper := isProper_change (fs.nodes_proper _ (mem_of_get? found)) link
  have children : (y.isDirectory || decide (fs.childNames place = [])) = true := by
    cases dir : x.isDirectory with
    | true => rw [kind, dir, Bool.true_or]
    | false =>
      have none : fs.childNames place = [] :=
        childNames_eq_nil (by simp [isDirectoryAt, found, dir])
      simp [none]
  simp only [admits, Bool.and_eq_true]
  refine ⟨⟨?_, children⟩, proper⟩
  cases place with
  | nil =>
    have root := isDirectoryAt_root fs
    simp only [isDirectoryAt, found, Option.any_some] at root
    exact kind.trans root
  | cons name q => exact isDirectoryAt_of_get?_cons found

/-- `fs'` is `fs` with a node at one place, and the work directory is the same. -/
structure IsPut (fs : FileSystem) (place : Place) (y : Node) (fs' : FileSystem) : Prop where
  view : ∀ q, fs'.get? q = if q = place then some y else fs.get? q
  workDir : fs'.workDir = fs.workDir

theorem IsPut.self (h : IsPut fs place y fs') : fs'.get? place = some y := by
  rw [h.view, if_pos rfl]

theorem IsPut.other (h : IsPut fs place y fs') {q : Place} (ne : q ≠ place) :
    fs'.get? q = fs.get? q := by
  rw [h.view, if_neg ne]

/-- What is there already may be put there. -/
theorem isPut_of_get? (found : fs.get? place = some y) : IsPut fs place y fs := by
  refine ⟨fun q => ?_, rfl⟩
  split
  · rename_i here
    rw [here, found]
  · rfl

theorem isPut_of_admits (h : fs.admits place y = true) : IsPut fs place y (fs.put place y) :=
  ⟨get?_put h, workDir_put ..⟩

theorem IsVacant.isPut (h : IsVacant fs place) (link : ∀ target, y ≠ .link target) :
    IsPut fs place y (fs.put place y) :=
  isPut_of_admits (h.admits fun target eq => absurd eq (link target))

/-- Of two nodes that are put at one place the second stays there. -/
theorem IsPut.again {fs₁ fs₂ : FileSystem} (first : IsPut fs place x fs₁)
    (second : IsPut fs₁ place y fs₂) : IsPut fs place y fs₂ := by
  refine ⟨fun q => ?_, second.workDir.trans first.workDir⟩
  rw [second.view, first.view]
  split <;> rfl

/-- A directory stays one and a link is left alone, so no path to a directory is lost. -/
theorem IsPut.preserved (h : IsPut fs place y fs')
    (dir : fs.isDirectoryAt place = true → y.isDirectory = true)
    (link : ∀ target, fs.get? place = some (.link target) → y = .link target) :
    Preserved fs fs' := by
  refine ⟨fun q there => ?_, fun q target found => ?_, h.workDir⟩
  · by_cases this : q = place
    · subst this
      simpa [isDirectoryAt, h.self] using dir there
    · simpa [isDirectoryAt, h.other this] using there
  · by_cases this : q = place
    · subst this
      rw [h.self, link target found]
    · rw [h.other this, found]

/-! ## Files that are written over -/

section

variable {goal : Goal} {here : Place} {old content : Octets} {mode mode' : Mode}
  (found : fs.get? place = some (.file old mode)) (put : IsPut fs place (.file content mode') fs')

include found put

/-- Where a file still stands, every path is walked as before, also if it is refused. -/
theorem IsPut.walk_eq (segments : List Text) :
    walk fs' goal here segments = walk fs goal here segments := by
  induction segments generalizing here with
  | nil => rw [walk_nil, walk_nil]
  | cons segment rest ih =>
    have same (q : Place) : fs'.get? q = fs.get? q
        ∨ fs'.get? q = some (.file content mode') ∧ fs.get? q = some (.file old mode) := by
      by_cases this : q = place
      · subst this
        exact .inr ⟨put.self, found⟩
      · exact .inl (put.other this)
    rcases same here with start | ⟨start', start⟩
    · rcases same (.text segment :: here) with next | ⟨next', next⟩
      · simp only [walk, start, next, ih]
      · simp only [walk, start, next', next, ih]
    · simp only [walk, start', start]

theorem IsPut.resolve_eq (links : Nat) (segments : List Text) :
    resolve fs' goal links here segments = resolve fs goal links here segments := by
  induction links generalizing here segments with
  | zero => rw [resolve, resolve, put.walk_eq found]
  | succ links ih =>
    rw [resolve, resolve, put.walk_eq found]
    simp only [ih]

theorem IsPut.locate_eq (goal : Goal) (path : Path) : locate fs' goal path = locate fs goal path := by
  simp only [locate, put.resolve_eq found, put.workDir]

theorem IsPut.isDirectoryAt_eq (q : Place) : fs'.isDirectoryAt q = fs.isDirectoryAt q := by
  by_cases this : q = place
  · subst this
    simp only [isDirectoryAt, put.self, found]
    rfl
  · simp only [isDirectoryAt, put.other this]

theorem IsPut.preserved_of_file : Preserved fs fs' := by
  apply put.preserved
  · simp [isDirectoryAt, found, Node.isDirectory]
  · simp [found]

end

end FileSystem

namespace FileAction

open FileSystem

variable {fs fs' : FileSystem} {place : Place} {path : Path} {content : Octets} {mode : Mode}

/-- A file is written where nothing stands or a file does, whose mode it keeps. -/
theorem writeFile_ok (h : writeFile path content fs = .ok place fs') :
    locate fs .file path = .ok place
      ∧ (fs.get? place = none ∧ IsVacant fs place ∧ IsPut fs place (.file content .newFile) fs'
        ∨ ∃ old mode, fs.get? place = some (.file old mode)
          ∧ IsPut fs place (.file content mode) fs') := by
  unfold writeFile at h
  split at h
  · simp at h
  · rename_i located
    split at h
    · rename_i free
      simp only [EStateM.Result.ok.injEq] at h
      obtain ⟨rfl, rfl⟩ := h
      have vacant := isVacant_of_locate located free
      exact ⟨located, .inl ⟨free, vacant, vacant.isPut (by simp)⟩⟩
    · rename_i old mode found
      simp only [EStateM.Result.ok.injEq] at h
      obtain ⟨rfl, rfl⟩ := h
      exact ⟨located, .inr ⟨old, mode, found,
        isPut_of_admits (admits_of_get? found rfl (by simp))⟩⟩
    · simp at h

theorem writeFile_error {why : IoError} (h : writeFile path content fs = .error why fs') :
    fs' = fs := by
  unfold writeFile at h
  split at h
  · exact (EStateM.Result.error.inj h).2.symm
  · split at h
    · simp at h
    · simp at h
    · exact (EStateM.Result.error.inj h).2.symm

/-- A mode is set on what the path leads to. -/
theorem setMode_ok (h : setMode path mode fs = .ok () fs') :
    ∃ place x, lookup fs path = .ok (place, x) ∧ IsPut fs place (x.withMode mode) fs' := by
  unfold setMode at h
  split at h
  · simp at h
  · rename_i place x found
    simp only [EStateM.Result.ok.injEq, true_and] at h
    subst h
    refine ⟨place, x, found, isPut_of_admits (admits_of_get? (get?_of_lookup found) (by simp) ?_)⟩
    cases x <;> simp [Node.withMode]

theorem setMode_error {why : IoError} (h : setMode path mode fs = .error why fs') : fs' = fs := by
  unfold setMode at h
  split at h
  · exact (EStateM.Result.error.inj h).2.symm
  · simp at h

/-- Where a path leads to a free place, a file can be written. -/
theorem writeFile_of_free (content : Octets) (located : locate fs .file path = .ok place)
    (free : fs.get? place = none) : ∃ fs', writeFile path content fs = .ok place fs'
      ∧ IsPut fs place (.file content .newFile) fs' := by
  refine ⟨_, ?_, (isVacant_of_locate located free).isPut (by simp)⟩
  simp only [writeFile, located, free]

/-- On whatever a path leads to, a mode can be set. -/
theorem setMode_of_lookup {x : Node} (mode : Mode) (looked : lookup fs path = .ok (place, x)) :
    ∃ fs', setMode path mode fs = .ok () fs' ∧ IsPut fs place (x.withMode mode) fs' := by
  have set : setMode path mode fs = .ok () (fs.put place (x.withMode mode)) := by
    simp only [setMode, looked]
  obtain ⟨_, _, found, put⟩ := setMode_ok set
  rw [looked] at found
  simp only [Except.ok.injEq, Prod.mk.injEq] at found
  obtain ⟨rfl, rfl⟩ := found
  exact ⟨_, set, put⟩

/-- A file that is opened is there already, or it is made at a vacant place. -/
theorem openFile_ok (h : openFile path fs = .ok place fs') :
    locate fs .file path = .ok place
      ∧ (fs.get? place = none ∧ IsVacant fs place ∧ IsPut fs place (.file (.text []) .newFile) fs'
        ∨ fs' = fs ∧ ∃ content mode, fs.get? place = some (.file content mode)) := by
  unfold openFile at h
  split at h
  · simp at h
  · rename_i located
    split at h
    · rename_i free
      simp only [EStateM.Result.ok.injEq] at h
      obtain ⟨rfl, rfl⟩ := h
      have vacant := isVacant_of_locate located free
      exact ⟨located, .inl ⟨free, vacant, vacant.isPut (by simp)⟩⟩
    · rename_i content mode found
      simp only [EStateM.Result.ok.injEq] at h
      obtain ⟨rfl, rfl⟩ := h
      exact ⟨located, .inr ⟨rfl, content, mode, found⟩⟩
    · simp at h

theorem openFile_error {why : IoError} (h : openFile path fs = .error why fs') : fs' = fs := by
  unfold openFile at h
  split at h
  · exact (EStateM.Result.error.inj h).2.symm
  · split at h
    · simp at h
    · simp at h
    · exact (EStateM.Result.error.inj h).2.symm

/-- A file is moved to where no directory stands. -/
theorem replaceFile_ok (h : replaceFile path content mode fs = .ok place fs') :
    locate fs .entry path = .ok place ∧ fs.isDirectoryAt place = false
      ∧ IsPut fs place (.file content mode) fs' := by
  unfold replaceFile at h
  split at h
  · simp at h
  · rename_i q located
    split at h
    · simp at h
    · rename_i other
      simp only [EStateM.Result.ok.injEq] at h
      obtain ⟨rfl, rfl⟩ := h
      cases found : fs.get? q with
      | none =>
        refine ⟨located, by simp [isDirectoryAt, found], ?_⟩
        exact (isVacant_of_locate located found).isPut (by simp)
      | some x =>
        have noDir : x.isDirectory = false := by
          cases x with
          | directory old => exact absurd found (other old)
          | file => rfl
          | link => rfl
        refine ⟨located, by simp [isDirectoryAt, found, noDir], ?_⟩
        exact isPut_of_admits (admits_of_get? found noDir.symm (by simp))

theorem replaceFile_error {why : IoError} (h : replaceFile path content mode fs = .error why fs') :
    fs' = fs := by
  unfold replaceFile at h
  split at h
  · exact (EStateM.Result.error.inj h).2.symm
  · split at h
    · exact (EStateM.Result.error.inj h).2.symm
    · simp at h

/-- What is removed is a file or a link. -/
theorem removeFile_ok (h : removeFile path fs = .ok place fs') :
    locateEntry fs path = .ok place ∧ fs.isDirectoryAt place = false ∧ fs' = fs.remove place := by
  unfold removeFile at h
  split at h
  · simp at h
  · rename_i q located
    split at h
    · simp at h
    · simp at h
    · rename_i x other found
      split at h
      · simp at h
      · simp only [EStateM.Result.ok.injEq] at h
        obtain ⟨rfl, rfl⟩ := h
        have noDir : x.isDirectory = false := by
          cases x with
          | directory mode => exact absurd rfl (other mode)
          | file => rfl
          | link => rfl
        exact ⟨located, by simp [isDirectoryAt, found, noDir], rfl⟩

theorem removeFile_error {why : IoError} (h : removeFile path fs = .error why fs') : fs' = fs := by
  unfold removeFile at h
  split at h
  · exact (EStateM.Result.error.inj h).2.symm
  · split at h
    · exact (EStateM.Result.error.inj h).2.symm
    · exact (EStateM.Result.error.inj h).2.symm
    · split at h
      · exact (EStateM.Result.error.inj h).2.symm
      · simp at h

theorem changePlace_of_file (change : Octets → Octets) {old : Octets}
    (found : fs.get? place = some (.file old mode)) :
    ∃ fs', changePlace place change fs = .ok () fs'
      ∧ IsPut fs place (.file (change old) mode) fs' := by
  refine ⟨fs.put place (.file (change old) mode), ?_, ?_⟩
  · simp only [changePlace, found]
  · exact isPut_of_admits (admits_of_get? found rfl (by simp))

theorem changePlace_of_noFile (change : Octets → Octets)
    (noFile : ∀ old mode, fs.get? place ≠ some (.file old mode)) :
    changePlace place change fs = .ok () fs := by
  unfold changePlace
  split
  · rename_i old mode found
    exact absurd found (noFile old mode)
  · rfl

/-- What is written to an open file replaces its content, however long that was. -/
theorem writePlace_of_file (content : Octets) {old : Octets}
    (found : fs.get? place = some (.file old mode)) :
    ∃ fs', writePlace place content fs = .ok () fs' ∧ IsPut fs place (.file content mode) fs' := by
  obtain ⟨cut, truncated, empty⟩ := changePlace_of_file (fun _ => .text []) found
  obtain ⟨fs', written, put⟩ := changePlace_of_file (fun old => old.overwrite content) empty.self
  rw [Octets.overwrite_nothing] at put
  refine ⟨fs', ?_, empty.again put⟩
  exact (bind_of_ok truncated).trans written

theorem writePlace_ok {old : Octets} (found : fs.get? place = some (.file old mode))
    (h : writePlace place content fs = .ok () fs') : IsPut fs place (.file content mode) fs' := by
  obtain ⟨fs'', written, put⟩ := writePlace_of_file content found
  obtain ⟨_, rfl⟩ := EStateM.Result.ok.inj (h.symm.trans written)
  exact put

theorem writePlace_of_noFile (content : Octets)
    (noFile : ∀ old mode, fs.get? place ≠ some (.file old mode)) :
    writePlace place content fs = .ok () fs :=
  (bind_of_ok (changePlace_of_noFile _ noFile)).trans (changePlace_of_noFile _ noFile)

/-- What is written to an open file goes into that file, or is lost with it. -/
theorem writePlace_cases (place : Place) (content : Octets) (fs : FileSystem) :
    ∃ fs', writePlace place content fs = .ok () fs'
      ∧ ((∃ old mode, fs.get? place = some (.file old mode)
          ∧ IsPut fs place (.file content mode) fs') ∨ fs' = fs) := by
  by_cases found : ∃ old mode, fs.get? place = some (.file old mode)
  · obtain ⟨old, mode, found⟩ := found
    obtain ⟨fs', written, put⟩ := writePlace_of_file content found
    exact ⟨fs', written, .inl ⟨old, mode, found, put⟩⟩
  · refine ⟨fs, writePlace_of_noFile content fun old mode here => ?_, .inr rfl⟩
    exact found ⟨old, mode, here⟩

theorem writePlace_ne_error {why : IoError} : writePlace place content fs ≠ .error why fs' := by
  obtain ⟨_, written, _⟩ := writePlace_cases place content fs
  simp [written]

theorem preserved_writeFile (h : writeFile path content fs = .ok place fs') :
    Preserved fs fs' := by
  obtain ⟨_, ⟨free, _, put⟩ | ⟨old, mode, found, put⟩⟩ := writeFile_ok h
  · exact put.preserved (by simp [isDirectoryAt, free]) (by simp [free])
  · exact put.preserved (by simp [isDirectoryAt, found, Node.isDirectory]) (by simp [found])

theorem preserved_setMode (h : setMode path mode fs = .ok () fs') : Preserved fs fs' := by
  obtain ⟨place, x, looked, put⟩ := setMode_ok h
  have found := get?_of_lookup looked
  refine put.preserved (fun dir => ?_) (fun target link => ?_)
  · simpa [isDirectoryAt, found] using dir
  · obtain rfl := Option.some.inj (found.symm.trans link)
    rfl

theorem preserved_createDirectories (h : createDirectories path fs = .ok () fs') :
    Preserved fs fs' := by
  rw [← after_ok h]
  exact (grown_createDirectories path fs).preserved

end FileAction

end Scaffold
