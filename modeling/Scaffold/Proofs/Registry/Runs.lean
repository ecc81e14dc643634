import Scaffold.Proofs.Registry.Changes

/-!
# Runs that nothing refuses

What an operation of a registry in files needs in order not to fail: the index can be
opened and read, and a config file can be moved to its place. Each rule gives the result of
such a run and says how the files look afterwards.
-/

namespace Scaffold

open FileSystem FileAction

variable {fs fs' fs₁ fs₂ : FileSystem} {place config q : Place} {path location : Path}
  {content : Text} {mode : Mode}

namespace FileAction

theorem replaceFile_of_locate (octets : Octets) (mode : Mode)
    (located : locate fs .entry path = .ok place) (noDir : fs.isDirectoryAt place = false) :
    ∃ fs', replaceFile path octets mode fs = .ok place fs' ∧ IsPut fs place (.file octets mode) fs' := by
  have moved : replaceFile path octets mode fs = .ok place (fs.put place (.file octets mode)) := by
    simp only [replaceFile, located]
    split
    · rename_i found
      simp [isDirectoryAt, found, Node.isDirectory] at noDir
    · rfl
  exact ⟨_, moved, (replaceFile_ok moved).2.2⟩

end FileAction

namespace FiledRegistry

variable {r : FiledRegistry} {index index' : Index} {name : TemplateName} {record : Record}
  {t : Template} {now : Instant} {origin : Origin} {e : Error} {α : Type} {a : α}
  {detached : List Place}

/-! ## Changes of the index -/

namespace Opens

variable {change : Index → Action (α × Index × List Place)}

/-- Once the index is open and read, its change is all that is left to do. -/
private theorem updateIndex_eq (h : r.Opens fs place index fs₁) :
    r.updateIndex change fs = (change index >>= fun (result, index, detached) =>
      if place ∈ detached then pure result
      else (writePlace place (.text (Index.render index))).run >>= fun _ => pure result) fs₁ := by
  obtain ⟨_, fs₀, made, opened⟩ := bind_ok_iff.1 h.opened
  obtain ⟨content, mode, found, parsed⟩ := h.stored
  have read : (readPlace place).run fs₁ = .ok content fs₁ := by
    simp only [FileAction.run, readPlace, query, found]
  unfold updateIndex
  rw [bind_of_ok (run_ok_iff.2 made), bind_of_ok (run_ok_iff.2 opened), bind_of_ok read,
    bind_of_ok (Action.ofExcept_ok_iff.2 ⟨parsed, rfl⟩)]

/-- A change of a registry fails if what it does with the index fails. -/
theorem updateIndex_error (h : r.Opens fs place index fs₁)
    (refused : change index fs₁ = .error e fs₂) : r.updateIndex change fs = .error e fs₂ := by
  rw [h.updateIndex_eq, bind_of_error refused]

/-- If it does not fail and spares the index file, the new index is written there. -/
theorem updateIndex_ok {old : Octets} (h : r.Opens fs place index fs₁)
    (changed : change index fs₁ = .ok (a, index', detached) fs₂) (spared : place ∉ detached)
    (found : fs₂.get? place = some (.file old mode)) :
    ∃ fs', r.updateIndex change fs = .ok a fs'
      ∧ IsPut fs₂ place (.file (.text index'.render) mode) fs' := by
  obtain ⟨fs', written, put⟩ := writePlace_of_file (.text index'.render) found
  refine ⟨fs', ?_, put⟩
  rw [h.updateIndex_eq, bind_of_ok changed]
  dsimp only
  rw [if_neg spared, bind_of_ok (run_ok_iff.2 written)]
  rfl

/-- If it has taken the index file away, nothing is written. -/
theorem updateIndex_detached (h : r.Opens fs place index fs₁)
    (changed : change index fs₁ = .ok (a, index', detached) fs₂) (met : place ∈ detached) :
    r.updateIndex change fs = .ok a fs₂ := by
  rw [h.updateIndex_eq, bind_of_ok changed]
  dsimp only
  rw [if_pos met]
  rfl

end Opens

/-! ## Config files -/

/-- In this directory a file can be staged and then moved to the place. -/
structure Accepts (fs : FileSystem) (location path : Path) (config : Place) : Prop where
  dir : fs.isDirectory location = true
  staged : checkStaging location fs = .ok () fs
  located : locate fs .entry path = .ok config
  noDir : fs.isDirectoryAt config = false

theorem writeConfig_of_accepts (t : Template) (made : createDirectories record.location fs = .ok () fs₁)
    (accepts : Accepts fs₁ record.location record.configFile config) :
    ∃ fs', writeConfig record t fs = .ok config fs'
      ∧ IsPut fs₁ config (.file (.text t.render) configFileMode) fs' := by
  obtain ⟨fs', moved, put⟩ :=
    replaceFile_of_locate (.text t.render) configFileMode accepts.located accepts.noDir
  refine ⟨fs', ?_, put⟩
  unfold writeConfig
  rw [bind_of_ok (run_ok_iff.2 made), bind_of_ok (get_ok_iff.2 ⟨rfl, rfl⟩), if_pos accepts.dir,
    bind_of_ok (run_ok_iff.2 accepts.staged)]
  exact run_ok_iff.2 moved

/-- A config file that was written had been accepted. -/
theorem exists_accepts (h : writeConfig record t fs = .ok config fs') :
    ∃ fs₁, createDirectories record.location fs = .ok () fs₁
      ∧ Accepts fs₁ record.location record.configFile config
      ∧ IsPut fs₁ config (.file (.text t.render) configFileMode) fs' := by
  obtain ⟨fs₁, made, located, noDir, put⟩ := writeConfig_ok h
  refine ⟨fs₁, made, ?_, put⟩
  rw [writeConfig, bind_of_ok (run_ok_iff.2 made), bind_of_ok (get_ok_iff.2 ⟨rfl, rfl⟩)] at h
  split at h
  · rename_i dir
    obtain ⟨_, _, staged, _⟩ := bind_ok_iff.1 h
    have staged := run_ok_iff.1 staged
    obtain rfl := query_state.1 _ staged
    exact ⟨dir, staged, located, noDir⟩
  · exact absurd h throw_ne_ok

theorem removeStale_of_removeFile (removed : removeFile path fs = .ok q fs') :
    removeStale path fs = .ok [q] fs' := by
  simp only [removeStale, removed]

theorem takeConfig_of_removeFile (wf : t.WellFormed)
    (read : readText record.configFile fs = .ok t.render fs)
    (removed : removeFile record.configFile fs = .ok q fs') :
    takeConfig record fs = .ok (t, [q]) fs' := by
  simp only [takeConfig, read, removed, Template.parse_render wf]
  rfl

/-! ## Operations -/

namespace Opens

/-- The index file is still there when directories have been made. -/
private theorem exists_index (h : r.Opens fs place index fs₁)
    (made : createDirectories path fs₁ = .ok () fs₂) :
    ∃ old mode, fs₂.get? place = some (.file old mode) := by
  obtain ⟨content, mode, found, _⟩ := h.stored
  have grown : Grown fs₁ fs₂ := after_ok made ▸ grown_createDirectories path fs₁
  exact ⟨_, mode, grown.kept place _ found⟩

/-- A template is put under a free name if its config file can be moved to its place. -/
theorem put_ok (h : r.Opens fs place index fs₁) (now : Instant) (t : Template)
    (free : index.get? name = none) (made : createDirectories origin.location fs₁ = .ok () fs₂)
    (accepts : Accepts fs₂ origin.location (origin.configFile name) config)
    (apart : config ≠ place) :
    ∃ fs₃ fs' mode, r.put now name origin t fs = .ok (origin.record name (some now)) fs'
      ∧ IsPut fs₂ config (.file (.text t.render) configFileMode) fs₃
      ∧ IsPut fs₃ place (.file (.text (Index.render
        (index.insert name (origin.record name (some now))))) mode) fs' := by
  let record := origin.record name (some now)
  obtain ⟨fs₃, written, put⟩ :=
    writeConfig_of_accepts t (show createDirectories record.location fs₁ = _ from made) accepts
  obtain ⟨old, mode, found⟩ := h.exists_index made
  rw [← put.other apart.symm] at found
  have new : index.contains name = false := by simp [SortedMap.contains, free]
  obtain ⟨fs', run, rewritten⟩ : ∃ fs', r.put now name origin t fs = .ok record fs'
      ∧ IsPut fs₃ place (.file (.text (Index.render (index.insert name record))) mode) fs' := by
    refine h.updateIndex_ok ?_ (show place ∉ [config] by simpa using apart.symm) found
    rw [if_neg (by simp [new])]
    exact bind_of_ok written
  exact ⟨fs₃, fs', mode, run, put, rewritten⟩

theorem put_error (h : r.Opens fs place index fs₁) (now : Instant) (t : Template)
    (found : index.get? name = some record) :
    r.put now name origin t fs = .error (.templateExists name.text) fs₁ := by
  refine h.updateIndex_error ?_
  have taken : index.contains name = true := by simp [SortedMap.contains, found]
  rw [if_pos taken]
  rfl

/-- A template is replaced if, beside that, an old config file under another path can be
removed. -/
theorem replace_ok {old : Record} (h : r.Opens fs place index fs₁) (now : Instant) (t : Template)
    (found : index.get? name = some old)
    (made : createDirectories origin.location fs₁ = .ok () fs₂)
    (accepts : Accepts fs₂ origin.location (origin.configFile name) config)
    (apart : config ≠ place)
    (stale : ∀ fs₃, IsPut fs₂ config (.file (.text t.render) configFileMode) fs₃ →
      Path.same old.configFile (origin.configFile name) = false →
      ∃ q fs₄, removeFile old.configFile fs₃ = .ok q fs₄ ∧ q ≠ place) :
    ∃ fs₃ gone fs₄ fs' mode,
      r.replace now name origin t fs = .ok (origin.record name (some now)) fs'
      ∧ IsPut fs₂ config (.file (.text t.render) configFileMode) fs₃
      ∧ (Path.same old.configFile (origin.configFile name) = true ∧ gone = [] ∧ fs₄ = fs₃
        ∨ Path.same old.configFile (origin.configFile name) = false
          ∧ ∃ q, gone = [q] ∧ removeFile old.configFile fs₃ = .ok q fs₄)
      ∧ IsPut fs₄ place (.file (.text (Index.render
        (index.insert name (origin.record name (some now))))) mode) fs' := by
  let record := origin.record name (some now)
  obtain ⟨fs₃, written, put⟩ :=
    writeConfig_of_accepts t (show createDirectories record.location fs₁ = _ from made) accepts
  obtain ⟨old', mode, there⟩ := h.exists_index made
  rw [← put.other apart.symm] at there
  by_cases same : Path.same old.configFile (origin.record name (some now)).configFile = true
  · obtain ⟨fs', run, rewritten⟩ : ∃ fs', r.replace now name origin t fs = .ok record fs'
        ∧ IsPut fs₃ place (.file (.text (Index.render (index.insert name record))) mode) fs' := by
      refine h.updateIndex_ok ?_ (show place ∉ [config] by simpa using apart.symm) there
      simp only [found]
      refine (bind_of_ok written).trans ?_
      rw [if_pos same]
      rfl
    exact ⟨fs₃, [], fs₃, fs', mode, run, put, .inl ⟨same, rfl, rfl⟩, rewritten⟩
  · have differ : Path.same old.configFile (origin.configFile name) = false :=
      Bool.eq_false_iff.2 same
    obtain ⟨q, fs₄, removed, away⟩ := stale fs₃ put differ
    have there : fs₄.get? place = some (.file old' mode) := by
      obtain ⟨_, noDir, rfl⟩ := removeFile_ok removed
      rw [(removed_remove noDir).frame place (by simpa using away.symm), there]
    obtain ⟨fs', run, rewritten⟩ : ∃ fs', r.replace now name origin t fs = .ok record fs'
        ∧ IsPut fs₄ place (.file (.text (Index.render (index.insert name record))) mode) fs' := by
      refine h.updateIndex_ok ?_ (show place ∉ [config, q] by simpa using ⟨apart.symm, away.symm⟩) there
      simp only [found]
      refine (bind_of_ok written).trans ?_
      rw [if_neg same]
      exact bind_of_ok (removeStale_of_removeFile removed)
    exact ⟨fs₃, [q], fs₄, fs', mode, run, put, .inr ⟨differ, q, rfl, removed⟩, rewritten⟩

theorem replace_error (h : r.Opens fs place index fs₁) (now : Instant) (t : Template)
    (free : index.get? name = none) :
    r.replace now name origin t fs = .error (.templateNotFound name.text) fs₁ := by
  refine h.updateIndex_error ?_
  simp only [free]
  rfl

/-- A template is deleted and given out if its config file can be read and removed. -/
theorem delete_ok (h : r.Opens fs place index fs₁) (wf : t.WellFormed)
    (found : index.get? name = some record)
    (read : readText record.configFile fs₁ = .ok t.render fs₁)
    (removed : removeFile record.configFile fs₁ = .ok q fs₂) (away : q ≠ place) :
    ∃ fs' mode, r.delete name fs = .ok ⟨name, record, t⟩ fs'
      ∧ IsPut fs₂ place (.file (.text (Index.render (index.erase name))) mode) fs' := by
  obtain ⟨content, mode, there, _⟩ := h.stored
  have there : fs₂.get? place = some (.file (.text content) mode) := by
    obtain ⟨_, noDir, rfl⟩ := removeFile_ok removed
    rw [(removed_remove noDir).frame place (by simpa using away.symm), there]
  obtain ⟨fs', run, rewritten⟩ : ∃ fs', r.delete name fs = .ok ⟨name, record, t⟩ fs'
      ∧ IsPut fs₂ place (.file (.text (Index.render (index.erase name))) mode) fs' := by
    refine h.updateIndex_ok ?_ (show place ∉ [q] by simpa using away.symm) there
    simp only [found]
    exact bind_of_ok (takeConfig_of_removeFile wf read removed)
  exact ⟨fs', mode, run, rewritten⟩

theorem delete_error (h : r.Opens fs place index fs₁) (free : index.get? name = none) :
    r.delete name fs = .error (.templateNotFound name.text) fs₁ := by
  refine h.updateIndex_error ?_
  simp only [free]
  rfl

end Opens

/-! ## An index written over another -/

/-- What is written to the index file is read back as it was, whatever the file held and
however long it was, and nothing else changes. -/
theorem rewritten_index_read_back {old : Octets} (timed : index.IsTimed)
    (located : locate fs .node r.indexPath = .ok place)
    (found : fs.get? place = some (.file old mode)) :
    ∃ fs', writePlace place (.text index.render) fs = .ok () fs'
      ∧ fs'.get? place = some (.file (.text index.render) mode)
      ∧ readPlace place fs' = .ok index.render fs'
      ∧ Index.parse index.render = .ok index
      ∧ r.readIndex fs' = .ok index fs'
      ∧ ∀ q, q ≠ place → fs'.get? q = fs.get? q := by
  obtain ⟨fs', written, put⟩ := writePlace_of_file (.text index.render) found
  have parsed : Index.parse index.render = .ok index := Index.parse_render timed
  -- The file is no link, so the path leads to it over the same links as before.
  have spares : Spares [place] fs fs' := by
    apply put.spares
    simp [isDirectoryAt, found, Node.isDirectory]
  have route : ∀ link ∈ linksOn fs .node r.indexPath, link ∉ [place] := by
    intro link on same
    rw [List.mem_singleton.1 same] at on
    exact not_mem_linksOn located (by simp [found]) on
  have reaches : Reaches fs' .node r.indexPath place :=
    spares.reaches located route (.file put.self (.inl (by simp [found])))
  refine ⟨fs', written, put.self, ?_, parsed, ?_, fun q other => put.other other⟩
  · simp only [readPlace, query, put.self]
  · exact readIndex_of_readText (reaches.readText_ok put.self) parsed

/-- A record in which everything is said that can be left out. -/
def fullRecord : Record :=
  ⟨"/p\x00\"é😀".toList, [], "t/../b_2.json".toList, ["*.log".toList, [], "\r\n\x1f\\".toList],
    some ⟨⟨0, 2, 29⟩, 23, 59, 59, 70⟩⟩

/-- A record in which nothing is said that can be left out. -/
def bareRecord : Record := ⟨[], "t".toList, "\u2028".toList, [], none⟩

def awkwardIndex : Index :=
  (SortedMap.empty.insert ⟨"b_2".toList, by decide⟩ fullRecord).insert
    ⟨"_a".toList, by decide⟩ bareRecord

/-- The file of an index that holds a longer text, which is no index. -/
def staleFiles : FileSystem :=
  FileSystem.empty.put [.text "index".toList] (.file (.text (List.replicate 2000 'x')) 0o600)

theorem rewritten_index_read_back_awkward :
    awkwardIndex.IsTimed ∧ awkwardIndex.render.length < 2000
      ∧ ∃ fs', writePlace [.text "index".toList] (.text awkwardIndex.render) staleFiles = .ok () fs'
        ∧ (FiledRegistry.mk "index".toList).readIndex fs' = .ok awkwardIndex fs' := by
  have full : fullRecord.IsTimed := by
    intro i same
    obtain rfl := Option.some.inj same
    exact .of_isRegular (by decide) (by decide)
  have bare : bareRecord.IsTimed := by
    intro i same
    simp [bareRecord] at same
  have none : Index.IsTimed SortedMap.empty := by simp [Index.IsTimed, SortedMap.empty]
  have timed : awkwardIndex.IsTimed := (none.insert full _).insert bare _
  have located : locate staleFiles .node "index".toList = .ok [.text "index".toList] := by
    decide +kernel
  have found : staleFiles.get? [.text "index".toList]
      = some (.file (.text (List.replicate 2000 'x')) 0o600) := by decide +kernel
  obtain ⟨fs', written, _, _, _, read, _⟩ :=
    rewritten_index_read_back (r := ⟨"index".toList⟩) timed located found
  exact ⟨timed, by decide +kernel, fs', written, read⟩

end FiledRegistry

end Scaffold
