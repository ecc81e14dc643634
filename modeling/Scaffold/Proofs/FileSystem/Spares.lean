import Scaffold.Proofs.FileSystem.Change

/-!
# Paths that go on to lead where they did

A path goes on to lead to its place across every change that spares the links on the way
and puts no other kind of node at the end, so what has to be known of a change is which
nodes it does not spare.
-/

namespace Scaffold

namespace FileSystem

variable {fs fs' fs'' : FileSystem} {goal : Goal} {here place q link : Place} {path : Path}
  {segments : List Text} {x y : Node} {content : Text} {links : Nat}
  {lost lost' : List Place}

/-! ## The links on the way -/

/-- The links that a resolution follows, in order. -/
def linksFrom (fs : FileSystem) (goal : Goal) : Nat → Place → List Text → List Place
  | 0, _, _ => []
  | links + 1, here, segments =>
    match walk fs goal here segments with
    | .followed target link rest =>
      link :: linksFrom fs goal links (startOf link.tail target) (Path.segments target ++ rest)
    | _ => []

/-- The links that are followed on the way along a path. -/
def linksOn (fs : FileSystem) (goal : Goal) (path : Path) : List Place :=
  linksFrom fs goal maxLinks (startOf fs.workDir path) (Path.segments path)

theorem Resolves.linksFrom_eq {followed : List Place}
    (h : Resolves fs goal links here segments followed place) :
    linksFrom fs goal links here segments = followed := by
  induction h with
  | @arrive links here place segments walks =>
    cases links with
    | zero => rfl
    | succ links => rw [linksFrom, walk_eq_of_walks walks]
  | follow walks _ ih =>
    rw [linksFrom, walk_eq_of_walks walks]
    simp only [ih]

/-! ## Changes that spare nodes -/

/-- From `fs` to `fs'` all directories stay directories, and whatever else stands at other
places than those that are lost is as it was. -/
structure Spares (lost : List Place) (fs fs' : FileSystem) : Prop where
  dirs : KeepsDirectories fs fs'
  others : ∀ q x, q ∉ lost → x.isDirectory = false → fs.get? q = some x → fs'.get? q = some x
  workDir : fs'.workDir = fs.workDir

theorem Spares.trans (h : Spares lost fs fs') (h' : Spares lost' fs' fs'') :
    Spares (lost ++ lost') fs fs'' := by
  refine ⟨fun q dir => h'.dirs q (h.dirs q dir), fun q x away kind found => ?_,
    h'.workDir.trans h.workDir⟩
  rw [List.mem_append, not_or] at away
  exact h'.others q x away.2 kind (h.others q x away.1 kind found)

theorem Spares.mono (h : Spares lost fs fs') (more : lost ⊆ lost') : Spares lost' fs fs' :=
  ⟨h.dirs, fun q x away => h.others q x fun mem => away (more mem), h.workDir⟩

theorem Grown.spares (h : Grown fs fs') : Spares [] fs fs' :=
  ⟨h.kept.keepsDirectories, fun q x _ _ found => h.kept q x found, h.workDir⟩

/-- Where no directory stands another node may be put. -/
theorem IsPut.spares (h : IsPut fs place y fs') (noDir : fs.isDirectoryAt place = false) :
    Spares [place] fs fs' := by
  refine ⟨fun q dir => ?_, fun q x away _ found => ?_, h.workDir⟩
  · have other : q ≠ place := by
      rintro rfl
      simp [noDir] at dir
    rwa [isDirectoryAt, h.other other, ← isDirectoryAt]
  · rw [h.other (by simpa using away), found]

/-- Where nothing stood, nothing is lost. -/
theorem IsPut.spares_of_free (h : IsPut fs place y fs') (free : fs.get? place = none) :
    Spares [] fs fs' := by
  have spares := h.spares (by simp [isDirectoryAt, free])
  refine ⟨spares.dirs, fun q x _ kind found => ?_, spares.workDir⟩
  refine spares.others q x (fun mem => ?_) kind found
  rw [List.mem_singleton.1 mem, free] at found
  simp at found

/-- From `fs` to `fs'` these files or links are taken away, and nothing else is touched. -/
structure Removed (gone : List Place) (fs fs' : FileSystem) : Prop where
  noDir : ∀ q ∈ gone, fs.isDirectoryAt q = false
  free : ∀ q ∈ gone, fs'.get? q = none
  frame : ∀ q, q ∉ gone → fs'.get? q = fs.get? q
  workDir : fs'.workDir = fs.workDir

theorem removed_nil (fs : FileSystem) : Removed [] fs fs :=
  ⟨by simp, by simp, fun _ _ => rfl, rfl⟩

theorem removed_remove (noDir : fs.isDirectoryAt place = false) :
    Removed [place] fs (fs.remove place) := by
  have proper : place ≠ [] := by
    rintro rfl
    simp at noDir
  refine ⟨by simpa using noDir, by simp [get?_remove proper], fun q away => ?_, workDir_remove ..⟩
  have other : q ≠ place := by simpa using away
  rw [get?_remove proper]
  split
  · rename_i behind
    obtain ⟨names, rfl⟩ := List.isSuffixOf_iff_suffix.1 behind
    have below : Below place (names ++ place) := ⟨names, by rintro rfl; exact other rfl, rfl⟩
    exact (get?_below_of_childNames (childNames_eq_nil noDir) below).symm
  · rfl

theorem Removed.spares (h : Removed lost fs fs') : Spares lost fs fs' := by
  refine ⟨fun q dir => ?_, fun q x away _ found => (h.frame q away).trans found, h.workDir⟩
  have away : q ∉ lost := fun mem => by simp [h.noDir q mem] at dir
  rwa [isDirectoryAt, h.frame q away, ← isDirectoryAt]

/-! ## Places under paths -/

theorem resolves_of_locate (h : locate fs goal path = .ok place) :
    Resolves fs goal maxLinks (startOf fs.workDir path) (Path.segments path)
      (linksOn fs goal path) place := by
  rw [locate, refusal?_of_locate h] at h
  obtain ⟨followed, resolves⟩ := exists_resolves h
  rwa [linksOn, resolves.linksFrom_eq]

theorem locate_node_of_file (h : locate fs .file path = .ok place) :
    locate fs .node path = .ok place := by
  rw [locate, refusal?_of_locate h]
  exact (resolves_of_locate h).node_of_file.resolve_eq

/-- A file that a path leads to can be opened under the path. -/
theorem locate_file_of_node {octets : Octets} {mode : Mode} (h : locate fs .node path = .ok place)
    (found : fs.get? place = some (.file octets mode)) : locate fs .file path = .ok place := by
  rw [locate, refusal?_of_locate h]
  exact ((resolves_of_locate h).file_of_node found).resolve_eq

/-- Where no slash stands at the end of a path, its entry is the one that is taken away. -/
theorem locateEntry_eq (noSlash : (Path.segments path).getLast? ≠ some []) (fs : FileSystem) :
    locateEntry fs path = locate fs .entry path := by
  have same : segmentsWithoutEnd path = Path.segments path := by
    rcases List.eq_nil_or_concat (Path.segments path) with none | ⟨front, last, segs⟩
    · exact absurd none (Text.split_ne_nil '/' path)
    · rw [segs, List.concat_eq_append, List.getLast?_concat] at noSlash
      have some : last ≠ [] := fun empty => noSlash (congrArg _ empty)
      rw [segmentsWithoutEnd, segs, List.concat_eq_append]
      simp [some]
  cases refused : refusal? path with
  | none => simp only [locateEntry, locate, refused, same]
  | some why => simp only [locateEntry, locate, refused]

/-- A file that stands at the end of a path can be taken away. -/
theorem removeFile_of_file {octets : Octets} {mode : Mode} (h : locate fs .entry path = .ok place)
    (found : fs.get? place = some (.file octets mode)) :
    FileAction.removeFile path fs = .ok place (fs.remove place) := by
  have noSlash := (resolves_of_locate h).getLast?_ne_of_file found
  have notEnding : Text.endsIn '/' path = false := by
    refine Bool.eq_false_iff.2 fun ends => noSlash ?_
    obtain ⟨front, rfl⟩ := List.getLast?_eq_some_iff.1 (by simpa [Text.endsIn] using ends)
    rw [Path.segments, Text.split_append_cons]
    simp
  simp only [FileAction.removeFile, locateEntry_eq noSlash, h, found, notEnding]
  rfl

/-- The same links are followed to a file that is made and to what the path leads to. -/
theorem linksOn_node_of_file (h : locate fs .file path = .ok place) :
    linksOn fs .node path = linksOn fs .file path :=
  (resolves_of_locate h).node_of_file.linksFrom_eq

theorem lastIsStep_of_locate_file (h : locate fs .file path = .ok place)
    (noDir : fs.isDirectoryAt place = false) : LastIsStep (Path.segments path) :=
  (resolves_of_locate h).lastIsStep (Text.split_ne_nil '/' path) noDir

/-- A path that goes along the front of a path that leads somewhere leads to a directory. -/
theorem leads_of_front {p : Path} {front : List Text} {last : Text}
    (located : locate fs goal path = .ok place) (segs : Path.segments path = front ++ [last])
    (some : last ≠ []) (kind : Path.isAbsolute p = Path.isAbsolute path)
    (along : front.filter (fun s => !Path.isIdle s) = Path.steps p) : ∃ dir, Leads fs p dir := by
  obtain ⟨_, dir, up, there, _⟩ := (resolves_of_locate located).front segs (by simp [some])
  rw [startOf, ← kind, ← startOf] at up
  exact ⟨dir, .of_resolves up there (sameSteps_of_filter along)⟩

/-- On the way stand links. -/
theorem isLink_of_mem_linksOn (located : locate fs goal path = .ok place)
    (mem : link ∈ linksOn fs goal path) : ∃ target, fs.get? link = some (.link target) :=
  (resolves_of_locate located).isLink mem

theorem not_mem_linksOn (located : locate fs goal path = .ok place)
    (notLink : ∀ target, fs.get? q ≠ some (.link target)) : q ∉ linksOn fs goal path := by
  intro mem
  obtain ⟨target, isLink⟩ := isLink_of_mem_linksOn located mem
  exact notLink target isLink

/-- The path leads to this place, where no link stands. -/
structure Reaches (fs : FileSystem) (goal : Goal) (path : Path) (place : Place) : Prop where
  located : locate fs goal path = .ok place
  notLink : ∀ target, fs.get? place ≠ some (.link target)

theorem Ends.of_eq (same : fs'.get? place = fs.get? place)
    (notLink : ∀ target, fs.get? place ≠ some (.link target)) :
    Ends fs fs' goal segments place := by
  cases found : fs.get? place with
  | none => exact .free (same.trans found)
  | some x =>
    rw [found] at same
    cases x with
    | directory mode => exact .directory (isDirectoryAt_of_get? same)
    | file content mode => exact .file same (.inl (by simp [found]))
    | link target => exact absurd found (notLink target)

/-- A path leads to the same place over the same links as long as they are spared. -/
theorem Spares.reaches (h : Spares lost fs fs') (located : locate fs goal path = .ok place)
    (route : ∀ link ∈ linksOn fs goal path, link ∉ lost)
    (ends : Ends fs fs' goal (Path.segments path) place) : Reaches fs' goal path place := by
  have resolves := resolves_of_locate located
  have same := resolves.frame h.dirs (fun link mem => by
    obtain ⟨target, found⟩ := resolves.isLink mem
    rw [found, h.others link _ (route link mem) rfl found]) ends
  rw [← h.workDir] at same
  refine ⟨?_, fun target link => ?_⟩
  · rw [locate, refusal?_of_locate located]
    exact same.resolve_eq
  · cases ends with
    | free none => simp [none] at link
    | directory dir => simp [isDirectoryAt, link, Node.isDirectory] at dir
    | file found => simp [found] at link

/-- A last name can be asked for as long as the links in front of it are spared, whatever
stands there. -/
theorem Spares.exists_locate_entry {front : List Text} {last : Text} (h : Spares lost fs fs')
    (located : locate fs .entry path = .ok place)
    (route : ∀ link ∈ linksOn fs .entry path, link ∉ lost)
    (segs : Path.segments path = front ++ [last]) (name : IsName .entry last []) :
    ∃ q, locate fs' .entry path = .ok q := by
  have resolves := resolves_of_locate located
  have some : last ≠ [] := by
    rintro rfl
    exact absurd name.notIdle (by decide)
  obtain ⟨_, dir, up, there, part⟩ := resolves.front segs (by simp [some])
  have there' := h.dirs dir there
  have up' := up.frame h.dirs (fun link mem => by
    obtain ⟨target, found⟩ := up.isLink mem
    rw [found, h.others link _ (route link (part mem)) rfl found]) (.directory there')
  obtain ⟨left, behind⟩ := up'.append there'
  have arrived : resolve fs' .entry left dir [last] = .ok (.text last :: dir) :=
    resolve_of_walk_arrived (walk_entry there' name)
  refine ⟨.text last :: dir, ?_⟩
  rw [locate, refusal?_of_locate located, h.workDir, segs]
  exact (behind .entry [last] ⟨last, List.mem_cons_self, some⟩).trans arrived

/-- A path along which a file is made at a free place leads to it. -/
theorem IsPut.reaches_of_free {mode : Mode} {octets : Octets}
    (put : IsPut fs place (.file octets mode) fs') (located : locate fs .file path = .ok place)
    (free : fs.get? place = none) : Reaches fs' .file path place :=
  (put.spares_of_free free).reaches located (by simp) (.file put.self (.inr (.inl rfl)))

/-- More directories lead no path astray. -/
theorem Reaches.grown (h : Reaches fs goal path place) (grown : Grown fs fs') :
    Reaches fs' goal path place := by
  refine grown.spares.reaches h.located (by simp) ?_
  cases found : fs.get? place with
  | some x => exact .of_eq ((grown.kept place x found).trans found.symm) h.notLink
  | none =>
    cases found' : fs'.get? place with
    | none => exact .free found'
    | some x => exact .directory (by simp [isDirectoryAt, found', grown.added place x found found'])

/-- A path that leads to a place leads there when links are followed. -/
theorem Reaches.locate_node (h : Reaches fs goal path place) : locate fs .node path = .ok place := by
  cases goal with
  | node => exact h.located
  | entry =>
    rw [locate, refusal?_of_locate h.located]
    exact ((resolves_of_locate h.located).node_of_entry h.notLink).resolve_eq
  | file => exact locate_node_of_file h.located

/-! ## Texts under paths -/

/-- What reading gives where this node stands. -/
def readNode : Option Node → Except IoError Text
  | none => .error .notFound
  | some (.file (.text content) _) => .ok content
  | some (.file (.binary ..) _) => .error .invalidData
  | some _ => .error .isADirectory

theorem readText_of_locate (h : locate fs .node path = .ok place) :
    FileAction.readText path fs = FileAction.query (fun fs => readNode (fs.get? place)) fs := by
  simp only [FileAction.readText, FileAction.query, lookup, h]
  cases found : fs.get? place with
  | none => rfl
  | some x =>
    cases x with
    | file content mode => cases content <;> rfl
    | directory mode => rfl
    | link target => rfl

theorem readText_of_locate_error {why : IoError} (h : locate fs .node path = .error why) :
    FileAction.readText path fs = .error why fs := by
  simp only [FileAction.readText, FileAction.query, lookup, h]

theorem Reaches.readText_eq (h : Reaches fs goal path place) :
    FileAction.readText path fs = FileAction.query (fun fs => readNode (fs.get? place)) fs :=
  readText_of_locate h.locate_node

theorem Reaches.readText_ok {mode : Mode} (h : Reaches fs goal path place)
    (found : fs.get? place = some (.file (.text content) mode)) :
    FileAction.readText path fs = .ok content fs := by
  simp only [h.readText_eq, FileAction.query, found, readNode]

/-! ## Links that are replaced -/

/-- A path that leads over a link which now is a file leads to that file or is refused. -/
theorem Spares.broken {goal' : Goal} (h : Spares lost fs fs')
    (located : locate fs goal path = .ok place) (on : link ∈ linksOn fs goal path)
    (only : ∀ q ∈ lost, q ≠ link → ∀ target, fs.get? q ≠ some (.link target))
    (broken : ∃ mode, fs'.get? link = some (.file (.text content) mode))
    (asked : goal' = goal ∨ goal' = .node) :
    (locate fs' goal' path = .ok link ∧ goal ≠ .entry)
      ∨ locate fs' goal' path = .error .notADirectory := by
  obtain ⟨mode, found⟩ := broken
  have after := (resolves_of_locate located).broken on h.dirs
    (fun q target other isLink => h.others q _ (fun mem => only q mem other target isLink) rfl
      isLink) found asked
  rwa [← h.workDir, ← show locate fs' goal' path = resolve fs' goal' maxLinks
    (startOf fs'.workDir path) (Path.segments path) by
      rw [locate, refusal?_of_locate located]] at after

/-- A refusal for another reason than that something is missing stands whatever is added. -/
theorem locate_error_of_kept {why : IoError} (kept : Kept fs fs') (workDir : fs'.workDir = fs.workDir)
    (h : locate fs goal path = .error why) (found : why ≠ .notFound) :
    locate fs' goal path = .error why := by
  unfold locate at h ⊢
  split at h
  · exact h
  · rw [workDir]
    exact resolve_error_of_kept kept h found

theorem locate_error_of_grown {why : IoError} (grown : Grown fs fs')
    (h : locate fs goal path = .error why) (found : why ≠ .notFound) :
    locate fs' goal path = .error why :=
  locate_error_of_kept grown.kept grown.workDir h found

end FileSystem

end Scaffold
