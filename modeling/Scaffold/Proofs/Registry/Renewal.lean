import Scaffold.Proofs.Instantiation.Writing
import Scaffold.Proofs.Registry.Failure
import Scaffold.Proofs.Registry.Parsed
import Scaffold.Proofs.Registry.Runs
import Scaffold.Proofs.Value.Buffer

/-!
# Templates that are stored again

A template that was put can be stored again from the same origin, unless its config file has
taken the place of the index or of a link that is followed on the way. When it is stored
again its config file is written with what it holds, and only the index changes, so this
may be done any number of times. If the config file met something, the template is lost at
once or cannot be stored again.
-/

namespace Scaffold

open FileSystem FileAction

variable {fs fs' base : FileSystem} {place config q : Place} {path location : Path}

namespace FiledRegistry

variable {r : FiledRegistry} {index index' : Index} {name m : TemplateName} {record : Record}
  {t : Template} {origin : Origin} {now : Instant} {time : Option Instant} {mode : Mode}
  {content : Text}

/-! ## Answers -/

/-- The template of a record that is read from a text. -/
def templateOf (name : TemplateName) (record : Record) : Except IoError Text → Except Error Template
  | .error .notFound => .error (.configMissing record.configFile name.text)
  | .error why => .error (.io why)
  | .ok content => Template.parse content

theorem get_answer_textAt (read : r.readIndex fs = .ok index fs)
    (found : index.get? name = some record) : (r.get name).answer fs
      = (templateOf name record (textAt fs record.configFile)).map (⟨name, record, ·⟩) := by
  have config : (readConfig name record).answer fs
      = templateOf name record (textAt fs record.configFile) := by
    simp only [Action.answer, readConfig, readText_eq_textAt, query]
    cases textAt fs record.configFile with
    | error why => cases why <;> rfl
    | ok content =>
      simp only [Action.ofExcept, templateOf]
      cases Template.parse content <;> rfl
  rw [get, Action.answer_bind_of_ok read, found, ← config]
  cases run : readConfig name record fs with
  | ok t fs₁ => rw [Action.answer_of_ok run]; exact Action.answer_bind_of_ok run
  | error e fs₁ => rw [Action.answer_of_error run]; exact Action.answer_bind_of_error run

theorem readIndex_of_located (located : locate fs .file r.indexPath = .ok place)
    (stored : fs.get? place = some (.file (.text index.render) mode)) (timed : index.IsTimed) :
    r.readIndex fs = .ok index fs := by
  have text : textAt fs r.indexPath = .ok index.render :=
    textAt_ok_iff.2 ⟨place, mode, locate_node_of_file located, stored⟩
  refine readIndex_ok_iff.2 ⟨?_, rfl⟩
  rw [text]
  exact Index.parse_render timed

/-! ## Templates that can be stored again -/

/-- The path of a file that is staged in a directory. -/
def stagingPath (workDir : Place) (location : Path) : Path :=
  Path.join (pathOf workDir) (Path.join location ".tmp000000".toList)

theorem checkStaging_ok_iff : checkStaging location fs = .ok () fs
    ↔ ∃ q, locate fs .entry (stagingPath fs.workDir location) = .ok q := by
  unfold checkStaging query stagingPath
  dsimp only
  cases locate fs .entry _ <;> simp [Except.map]

/-- Where a path leads to a file, the directories in front of it need not be made. -/
theorem createDirectories_parent (located : locate fs .file path = .ok place)
    (noDir : fs.isDirectoryAt place = false) :
    createDirectories ((Path.parent? path).getD []) fs = .ok () fs := by
  obtain ⟨front, last, segs, step⟩ := lastIsStep_of_locate_file located noDir
  obtain ⟨parent, isParent, kind, along, _, thinner⟩ := Path.exists_parent segs step
  rw [isParent, Option.getD_some]
  by_cases none : ancestors parent = []
  · rw [createDirectories, none]
    rfl
  · obtain ⟨above, list⟩ := ancestors_eq_cons none
    have first : parent ∈ ancestors parent := by simp [list]
    have allowed := refusal?_of_sublist (refusal?_of_locate located) (thinner parent first)
      (Path.ne_nil_of_mem_ancestors first)
    have some : last ≠ [] := by
      rintro rfl
      simp [Path.isIdle] at step
    obtain ⟨dir, leads⟩ := leads_of_front located segs some kind along.symm
    exact createDirectories_of_leads leads allowed

/-- An index file that is there is opened as it is. -/
theorem Opens.of_located (located : locate fs .file r.indexPath = .ok place)
    (found : fs.get? place = some (.file (.text content) mode))
    (parsed : Index.parse content = .ok index) : r.Opens fs place index fs := by
  have noDir : fs.isDirectoryAt place = false := by simp [isDirectoryAt, found, Node.isDirectory]
  have home := createDirectories_parent located noDir
  refine ⟨bind_ok_iff.2 ⟨(), fs, home, ?_⟩, content, mode, found, parsed⟩
  simp only [openFile, located, found]

/-- The index is open and holds what the registry would write, and the config file of the
template stands in its place and could be moved there again. -/
structure Renews (r : FiledRegistry) (name : TemplateName) (origin : Origin) (t : Template)
    (place config : Place) (fs : FileSystem) (index : Index) : Prop where
  located : locate fs .file r.indexPath = .ok place
  stored : ∃ mode, fs.get? place = some (.file (.text index.render) mode)
  timed : index.IsTimed
  accepts : Accepts fs origin.location (origin.configFile name) config
  apart : config ≠ place
  written : fs.get? config = some (.file (.text t.render) configFileMode)

namespace Renews

/-- If only the index is written over, the template can be stored again as before. -/
theorem put (h : Renews r name origin t place config fs index)
    (put : IsPut fs place (.file (.text index'.render) mode) fs') (timed : index'.IsTimed) :
    Renews r name origin t place config fs' index' := by
  obtain ⟨_, found⟩ := h.stored
  have kept := put.preserved_of_file found
  obtain ⟨allowed, dir, leads⟩ := leads_of_isDirectory h.accepts.dir
  have staged : checkStaging origin.location fs' = .ok () fs' := by
    rw [checkStaging_ok_iff, put.locate_eq found, put.workDir]
    exact checkStaging_ok_iff.1 h.accepts.staged
  exact {
    located := (put.locate_eq found _ _).trans h.located
    stored := ⟨mode, put.self⟩
    timed := timed
    accepts := ⟨(leads.preserved kept).isDirectory_eq allowed, staged,
      (put.locate_eq found _ _).trans h.accepts.located,
      (put.isDirectoryAt_eq found _).trans h.accepts.noDir⟩
    apart := h.apart
    written := (put.other h.apart).trans h.written }

theorem readIndex_eq (h : Renews r name origin t place config fs index) :
    r.readIndex fs = .ok index fs := by
  obtain ⟨_, found⟩ := h.stored
  exact readIndex_of_located h.located found h.timed

/-- The config file is what is read under its path. -/
theorem textAt_config (h : Renews r name origin t place config fs index) :
    textAt fs (origin.configFile name) = .ok t.render := by
  have reaches : Reaches fs .entry (origin.configFile name) config :=
    ⟨h.accepts.located, by simp [h.written]⟩
  simp only [textAt, reaches.locate_node, h.written, readNode]

/-- The template is given out. -/
theorem get (h : Renews r name origin t place config fs index) (wf : t.WellFormed)
    (found : index.get? name = some (origin.record name time)) :
    r.get name fs = .ok ⟨name, origin.record name time, t⟩ fs := by
  have answer := get_answer_textAt h.readIndex_eq found
  have config : textAt fs (origin.record name time).configFile = .ok t.render := h.textAt_config
  rw [config, templateOf, Template.parse_render wf] at answer
  exact (r.asks_get name).run_of_answer answer

theorem opens (h : Renews r name origin t place config fs index) : r.Opens fs place index fs := by
  obtain ⟨mode, found⟩ := h.stored
  exact .of_located h.located found (Index.parse_render h.timed)

/-- The template is stored again, and nothing but the index changes. -/
theorem replace (h : Renews r name origin t place config fs index)
    (found : index.get? name = some (origin.record name time)) (now : Instant) :
    ∃ fs' mode, r.replace now name origin t fs = .ok (origin.record name (some now)) fs'
      ∧ IsPut fs place (.file (.text (Index.render
        (index.insert name (origin.record name (some now))))) mode) fs' := by
  have same : Path.same (origin.record name time).configFile (origin.configFile name) = true :=
    Path.same_refl _
  obtain ⟨allowed, dir, leads⟩ := leads_of_isDirectory h.accepts.dir
  have made := createDirectories_of_leads leads allowed
  obtain ⟨fs₁, gone, fs₂, fs', mode, run, put, stale, rewritten⟩ :=
    h.opens.replace_ok now t found made h.accepts h.apart
      (fun _ _ differ => absurd same (by simp [differ]))
  obtain ⟨_, _, rfl⟩ | ⟨differ, _⟩ := stale
  · refine ⟨fs', mode, run, fun q => ?_, rewritten.workDir.trans put.workDir⟩
    rw [rewritten.view, put.view]
    split
    · rfl
    · split
      · rename_i here
        rw [here, h.written]
      · rfl
  · exact absurd same (by simp [differ])

/-- What is read under other paths is as before, unless it is read in the index, which is no
template. -/
theorem templateOf_textAt (h : Renews r name origin t place config fs index)
    (put : IsPut fs place (.file (.text index'.render) mode) fs') (m : TemplateName)
    (record : Record) : templateOf m record (textAt fs' record.configFile)
      = templateOf m record (textAt fs record.configFile) := by
  obtain ⟨_, found⟩ := h.stored
  have same := put.locate_eq found .node record.configFile
  cases located : locate fs .node record.configFile with
  | error why => simp only [textAt, same, located]
  | ok q =>
    by_cases here : q = place
    · subst here
      simp only [textAt, same, located, put.self, found, readNode, templateOf,
        Template.parse_index]
    · simp only [textAt, same, located, put.other here]

/-- Every other template is as before. -/
theorem stores (h : Renews r name origin t place config fs index) (wf : t.WellFormed)
    (found : index.get? name = some (origin.record name time)) (proper : now.IsProper)
    (put : IsPut fs place (.file (.text (Index.render
      (index.insert name (origin.record name (some now))))) mode) fs') :
    Stores r name (some (origin.record name time)) (origin.record name (some now)) t fs fs' := by
  have timed := h.timed.insert (origin.isTimed_record name proper) name
  have after := h.put put timed
  have self : (index.insert name (origin.record name (some now))).get? name
      = some (origin.record name (some now)) := SortedMap.get?_insert_self ..
  refine ⟨?_, Action.answer_of_ok (after.get wf self), fun m differ => ?_⟩
  · obtain ⟨front, back, parts, set, smaller, larger⟩ :=
      SortedMap.insertEntry_split name (origin.record name (some now)) index.ascending
    refine ⟨front, back, ?_, ?_, smaller, larger⟩
    · rw [list_answer h.readIndex_eq, ← found]
      exact congrArg Except.ok parts
    · rw [list_answer after.readIndex_eq]
      exact congrArg Except.ok set
  · have same := index.get?_insert_of_ne (origin.record name (some now)) differ
    constructor
    · rw [contains_answer h.readIndex_eq, contains_answer after.readIndex_eq, SortedMap.contains,
        same, SortedMap.contains]
    · cases other : index.get? m with
      | none =>
        rw [get_answer_none h.readIndex_eq other,
          get_answer_none after.readIndex_eq (same.trans other)]
      | some record =>
        rw [get_answer_textAt h.readIndex_eq other,
          get_answer_textAt after.readIndex_eq (same.trans other), h.templateOf_textAt put]

end Renews

/-! ## What a put has done -/

/-- The index is opened where its path leads, and nothing that was there is lost. -/
theorem openIndex_reaches (ok : r.openIndex fs = .ok place base) :
    Reaches base .file r.indexPath place ∧ Kept fs base ∧ base.workDir = fs.workDir := by
  obtain ⟨_, fs₁, made, opened⟩ := bind_ok_iff.1 ok
  have grown : Grown fs fs₁ := after_ok made ▸ grown_createDirectories _ fs
  obtain ⟨located, ⟨free, vacant, put⟩ | ⟨rfl, content, mode, found⟩⟩ := openFile_ok opened
  · refine ⟨put.reaches_of_free located free, fun q x known => ?_, put.workDir.trans grown.workDir⟩
    have other : q ≠ place := by
      rintro rfl
      simp [grown.kept q x known] at free
    rw [put.other other, grown.kept q x known]
  · exact ⟨⟨located, by simp [found]⟩, grown.kept, grown.workDir⟩

/-- From `base`, where the index is open and the directory of the config file is there, to
`fs` the template was put: its config file stands in its place, and the index was written
unless the config file has taken its place. -/
structure Puts (r : FiledRegistry) (name : TemplateName) (origin : Origin) (record : Record)
    (t : Template) (index : Index) (place config : Place) (base fs : FileSystem) : Prop where
  reaches : Reaches base .file r.indexPath place
  stored : ∃ content mode, base.get? place = some (.file (.text content) mode)
    ∧ Index.parse content = .ok index
  accepts : Accepts base origin.location (origin.configFile name) config
  spares : Spares [config, place] base fs
  written : fs.get? config = some (.file (.text t.render) configFileMode)
  indexed : config ≠ place →
    ∃ mode, fs.get? place = some (.file (.text (Index.render (index.insert name record))) mode)
  frame : ∀ q, q ≠ config → q ≠ place → fs.get? q = base.get? q

/-- The config file takes the place neither of the index nor of a link that is followed to
the index, to the config file or to where it is staged. -/
structure KeepsOwnWays (r : FiledRegistry) (fs : FileSystem) (location path : Path)
    (place config : Place) : Prop where
  apart : config ≠ place
  route : config ∉ linksOn fs .node r.indexPath
  own : config ∉ linksOn fs .entry path
  staging : config ∉ linksOn fs .entry (stagingPath fs.workDir location)

instance : Decidable (KeepsOwnWays r fs location path place config) :=
  decidable_of_iff (config ≠ place ∧ (∀ link ∈ linksOn fs .node r.indexPath, link ≠ config)
      ∧ (∀ link ∈ linksOn fs .entry path, link ≠ config)
      ∧ ∀ link ∈ linksOn fs .entry (stagingPath fs.workDir location), link ≠ config)
    ⟨fun ⟨apart, route, own, staging⟩ => ⟨apart, List.forall_mem_ne'.1 route,
        List.forall_mem_ne'.1 own, List.forall_mem_ne'.1 staging⟩,
      fun h => ⟨h.apart, List.forall_mem_ne'.2 h.route, List.forall_mem_ne'.2 h.own,
        List.forall_mem_ne'.2 h.staging⟩⟩

/-- The config file of this template will be in the way of nothing that is needed to store it
again. -/
def StoreKeepsOwnWays (r : FiledRegistry) (name : TemplateName) (origin : Origin)
    (fs : FileSystem) : Prop :=
  r.WhenReady name origin fs fun _ place fs₁ config =>
    KeepsOwnWays r fs₁ origin.location (origin.configFile name) place config

instance : Decidable (r.StoreKeepsOwnWays name origin fs) :=
  inferInstanceAs (Decidable (r.WhenReady ..))

/-- A directory that is made for a file stands above it, unless the path leads up. -/
theorem below_of_parent_made {x : Node}
    (made : createDirectories ((Path.parent? path).getD []) fs = .ok () fs')
    (located : locate fs' .file path = .ok place) (noDir : fs'.isDirectoryAt place = false)
    (noUp : ['.', '.'] ∉ Path.segments path) (new : fs.get? q = none)
    (found : fs'.get? q = some x) : Below q place := by
  obtain ⟨front, last, segs, step⟩ := lastIsStep_of_locate_file located noDir
  obtain ⟨parent, isParent, kind, above, _⟩ := Path.exists_parent segs step
  rw [isParent, Option.getD_some] at made
  have along : Path.steps path = Path.steps parent ++ [last] := by
    rw [above, Path.steps, segs, List.filter_append]
    simp [step]
  exact below_of_createDirectories made kind.symm along noUp located new found

/-- A directory that is made for a config file stands above it, unless the path leads up. -/
theorem below_of_location_made {x : Node}
    (made : createDirectories origin.location fs = .ok () fs')
    (located : locate fs' .entry (origin.configFile name) = .ok config)
    (noUp : ['.', '.'] ∉ Path.segments origin.location) (new : fs.get? q = none)
    (found : fs'.get? q = some x) : Below q config := by
  have word := name.isWord_configName
  obtain ⟨front, segs, _, part⟩ := Path.segments_join origin.location word
  have along : Path.steps (origin.configFile name)
      = Path.steps origin.location ++ [name.configName] := by
    rw [show origin.configFile name = Path.join origin.location name.configName from rfl,
      Path.steps_join origin.location word]
    simp [name.configName_notIdle]
  have noUp' : ['.', '.'] ∉ Path.segments (origin.configFile name) := by
    intro mem
    rcases List.mem_append.1 (segs ▸ mem) with mem | last
    · exact noUp (part.subset mem)
    · exact name.configName_notUp (List.mem_singleton.1 last).symm
  exact below_of_createDirectories made (Path.isAbsolute_join _ word) along noUp' located new found

/-- What is new when a template can be stored is the index, or it stands above the index or
above the config file, unless a path leads up. -/
theorem new_of_prepare {x : Node} (ready : r.prepare origin.location fs = .ok place base)
    (located : locate base .entry (origin.configFile name) = .ok config)
    (noUp : ['.', '.'] ∉ Path.segments r.indexPath)
    (noUp' : ['.', '.'] ∉ Path.segments origin.location) (new : fs.get? q = none)
    (found : base.get? q = some x) : q = place ∨ Below q place ∨ Below q config := by
  obtain ⟨place, fs₂, opening, making⟩ := bind_ok_iff.1 ready
  obtain ⟨_, base, made, same⟩ := bind_ok_iff.1 making
  obtain ⟨rfl, rfl⟩ := pure_ok_iff.1 same
  obtain ⟨_, fs₁, home, opened⟩ := bind_ok_iff.1 opening
  obtain ⟨led, opened⟩ := openFile_ok opened
  cases later : fs₂.get? q with
  | none => exact .inr (.inr (below_of_location_made made located noUp' later found))
  | some y =>
    cases early : fs₁.get? q with
    | none =>
      -- only the index itself is made when it is opened
      rcases opened with ⟨_, _, put⟩ | ⟨rfl, _⟩
      · by_cases here : q = place
        · exact .inl here
        · simp [put.other here, early] at later
      · simp [early] at later
    | some z =>
      have noDir : fs₁.isDirectoryAt place = false := by
        rcases opened with ⟨free, _⟩ | ⟨_, _, _, isFile⟩
        · simp [isDirectoryAt, free]
        · simp [isDirectoryAt, isFile, Node.isDirectory]
      exact .inr (.inl (below_of_parent_made home led noDir noUp new early))

/-- Neither the index nor the config file of this template will stand below the root, and their
paths do not lead up. -/
structure StoresOutside (r : FiledRegistry) (name : TemplateName) (origin : Origin) (root : Place)
    (fs : FileSystem) : Prop where
  index : ['.', '.'] ∉ Path.segments r.indexPath
  location : ['.', '.'] ∉ Path.segments origin.location
  outside : r.WhenReady name origin fs fun _ place _ config =>
    ¬ Below root place ∧ ¬ Below root config

instance {root : Place} : Decidable (StoresOutside r name origin root fs) :=
  decidable_of_iff ((∀ s ∈ Path.segments r.indexPath, s ≠ ['.', '.'])
      ∧ (∀ s ∈ Path.segments origin.location, s ≠ ['.', '.'])
      ∧ r.WhenReady name origin fs fun _ place _ config =>
        ¬ Below root place ∧ ¬ Below root config)
    ⟨fun ⟨index, location, outside⟩ => ⟨List.forall_mem_ne'.1 index,
        List.forall_mem_ne'.1 location, outside⟩,
      fun h => ⟨List.forall_mem_ne'.2 h.index, List.forall_mem_ne'.2 h.location, h.outside⟩⟩

/-- Then no directory is made below the root. -/
theorem StoresOutside.get?_eq {root : Place} (h : r.StoresOutside name origin root fs)
    (read : r.readIndex fs = .ok index fs) (ready : r.prepare origin.location fs = .ok place base)
    (located : locate base .entry (origin.configFile name) = .ok config) (kept : Kept fs base)
    (below : Below root q) : base.get? q = fs.get? q ∧ q ≠ place ∧ q ≠ config := by
  obtain ⟨outside, outside'⟩ := (whenReady_iff read ready located).1 h.outside
  have apart : q ≠ place ∧ q ≠ config :=
    ⟨fun same => outside (same ▸ below), fun same => outside' (same ▸ below)⟩
  refine ⟨?_, apart⟩
  cases before : fs.get? q with
  | some x => exact kept q x before
  | none =>
    cases found : base.get? q with
    | none => rfl
    | some x =>
      exfalso
      rcases new_of_prepare ready located h.index h.location before found with here | above | above
      · exact apart.1 here
      · exact outside (below.trans above)
      · exact outside' (below.trans above)

theorem exists_puts (h : r.put now name origin t fs = .ok record fs') :
    record = origin.record name (some now) ∧ ∃ index place config base,
      r.prepare origin.location fs = .ok place base ∧ Kept fs base
        ∧ base.workDir = fs.workDir ∧ index.get? name = none
        ∧ Puts r name origin record t index place config base fs' := by
  obtain ⟨rfl, place, index, config, fs₁, fs₂, ⟨opened, content, mode, found, parsed⟩, free,
    written, writes⟩ := put_inv h
  obtain ⟨base, made, accepts, put⟩ := exists_accepts written
  obtain ⟨reaches, kept, workDir⟩ := openIndex_reaches opened
  have grown : Grown fs₁ base := after_ok made ▸ grown_createDirectories _ fs₁
  have there := grown.kept place _ found
  refine ⟨rfl, index, place, config, base, prepare_of_ok opened made,
    fun q x known => grown.kept q x (kept q x known), grown.workDir.trans workDir, free, ?_⟩
  have spares := put.spares accepts.noDir
  rcases writes with ⟨met, rfl⟩ | ⟨unmet, write⟩
  · obtain rfl := List.mem_singleton.1 met
    exact ⟨reaches.grown grown, ⟨content, mode, there, parsed⟩, accepts, spares.mono (by simp),
      put.self, fun apart => absurd rfl apart, fun q away _ => put.other away⟩
  · have apart : place ≠ config := by simpa using unmet
    have rewritten := writePlace_ok ((put.other apart).trans there) write
    have noDir : fs₂.isDirectoryAt place = false := by
      simp [isDirectoryAt, (put.other apart).trans there, Node.isDirectory]
    exact ⟨reaches.grown grown, ⟨content, mode, there, parsed⟩, accepts,
      (spares.trans (rewritten.spares noDir)).mono (by simp),
      (rewritten.other apart.symm).trans put.self, fun _ => ⟨_, rewritten.self⟩,
      fun q away away' => (rewritten.other away').trans (put.other away)⟩

/-- To store a template again a file was staged in its directory, when nothing was lost. -/
theorem exists_staged_of_replace (h : r.replace now name origin t fs = .ok record fs') :
    ∃ base q, Kept fs base ∧ base.workDir = fs.workDir
      ∧ locate base .entry (stagingPath base.workDir origin.location) = .ok q := by
  obtain ⟨rfl, _, _, _, _, _, fs₁, _, _, opens, _, written, _⟩ := replace_inv h
  obtain ⟨base, made, accepts, _⟩ := exists_accepts written
  obtain ⟨_, kept, workDir⟩ := openIndex_reaches opens.opened
  have grown : Grown fs₁ base := after_ok made ▸ grown_createDirectories _ fs₁
  obtain ⟨q, located⟩ := checkStaging_ok_iff.1 accepts.staged
  exact ⟨base, q, fun q x known => grown.kept q x (kept q x known),
    grown.workDir.trans workDir, located⟩

namespace Puts

variable (h : Puts r name origin record t index place config base fs)

include h

/-- Of what is not spared only the place of the config file can be that of a link. -/
theorem not_link {q : Place} (lost : q ∈ [config, place]) (other : q ≠ config) (target : Path) :
    base.get? q ≠ some (.link target) := by
  obtain rfl : q = place := by simpa [other] using lost
  exact h.reaches.notLink target

/-- A way on which the config file takes the place of no link is spared. -/
theorem route {goal : Goal} {p : Path} (located : locate base goal p = .ok q)
    (unmet : config ∉ linksOn base goal p) :
    ∀ link ∈ linksOn base goal p, link ∉ [config, place] := by
  intro link mem lost
  obtain ⟨target, isLink⟩ := isLink_of_mem_linksOn located mem
  refine h.not_link lost (fun same => ?_) target isLink
  exact unmet (same ▸ mem)

/-- If it takes the place of a link, the way ends there. -/
theorem broken {goal goal' : Goal} {p : Path} (located : locate base goal p = .ok q)
    (met : config ∈ linksOn base goal p) (asked : goal' = goal ∨ goal' = .node) :
    (locate fs goal' p = .ok config ∧ goal ≠ .entry) ∨ locate fs goal' p = .error .notADirectory :=
  h.spares.broken located met (fun _ lost other => h.not_link lost other) ⟨_, h.written⟩ asked

/-! ### If nothing is met -/

theorem reaches_index (apart : config ≠ place) (unmet : config ∉ linksOn base .node r.indexPath) :
    Reaches fs .file r.indexPath place := by
  obtain ⟨mode, found⟩ := h.indexed apart
  obtain ⟨_, _, before, _⟩ := h.stored
  rw [linksOn_node_of_file h.reaches.located] at unmet
  exact h.spares.reaches h.reaches.located (h.route h.reaches.located unmet)
    (.file found (.inl (by simp [before])))

theorem reaches_config (own : config ∉ linksOn base .entry (origin.configFile name)) :
    Reaches fs .entry (origin.configFile name) config := by
  refine h.spares.reaches h.accepts.located (h.route h.accepts.located own) ?_
  have isOf : (origin.record name none).IsOf name := origin.isOf_record name _
  exact .file h.written (.inr (.inr ⟨rfl, isOf.getLast?_ne⟩))

/-- A template that was put and met nothing is given out. -/
theorem get (isRecord : record = origin.record name time) (wf : t.WellFormed)
    (timed : Index.IsTimed (index.insert name record)) (apart : config ≠ place)
    (route : config ∉ linksOn base .node r.indexPath)
    (own : config ∉ linksOn base .entry (origin.configFile name)) :
    (r.get name).answer fs = .ok ⟨name, record, t⟩ := by
  obtain ⟨_, found⟩ := h.indexed apart
  have read := readIndex_of_located (h.reaches_index apart route).located found timed
  have reaches : Reaches fs .entry record.configFile config := isRecord ▸ h.reaches_config own
  rw [get_answer_some read (SortedMap.get?_insert_self ..) reaches, h.written, configAnswer_text,
    Template.parse_render wf]
  rfl

/-- A template that was put and met nothing can be stored again. -/
theorem renews (timed : Index.IsTimed (index.insert name record))
    (keeps : KeepsOwnWays r base origin.location (origin.configFile name) place config) :
    Renews r name origin t place config fs (index.insert name record) := by
  obtain ⟨mode, found⟩ := h.indexed keeps.apart
  have reaches := h.reaches_index keeps.apart keeps.route
  have reaches' := h.reaches_config keeps.own
  obtain ⟨allowed, _⟩ := leads_of_isDirectory h.accepts.dir
  obtain ⟨front, segs, along, _⟩ := Path.segments_join origin.location name.isWord_configName
  obtain ⟨dir, leads⟩ := leads_of_front reaches'.located segs name.isWord_configName.1
    (Path.isAbsolute_join _ name.isWord_configName).symm along
  have staged : checkStaging origin.location fs = .ok () fs := by
    obtain ⟨q, located⟩ := checkStaging_ok_iff.1 h.accepts.staged
    have step : IsStep ".tmp000000".toList := isStep_of_isPathComponent (by decide)
    obtain ⟨_, segs, _⟩ := Path.segments_join (Path.join (pathOf base.workDir) origin.location)
      step.word
    rw [← Path.join_join _ _ step.word] at segs
    rw [checkStaging_ok_iff, h.spares.workDir]
    exact h.spares.exists_locate_entry located (h.route located keeps.staging) segs
      ⟨step.notIdle, step.notUp, by simp, by decide⟩
  exact {
    located := reaches.located
    stored := ⟨mode, found⟩
    timed := timed
    accepts := ⟨leads.isDirectory_eq allowed, staged, reaches'.located,
      by simp [isDirectoryAt, h.written, Node.isDirectory]⟩
    apart := keeps.apart
    written := h.written }

/-! ### If something is met -/

/-- An index that can be read was not met. -/
theorem unmet_of_readIndex (read : r.readIndex fs = .ok index' fs) :
    config ≠ place ∧ config ∉ linksOn base .node r.indexPath := by
  have damaged (led : locate fs .node r.indexPath = .ok config) : False := by
    have text : textAt fs r.indexPath = .ok t.render := by
      simp only [textAt, led, h.written, readNode]
    have parsed := (readIndex_ok_iff.1 read).1
    simp [text, indexOf, Index.parse_template] at parsed
  have located := locate_node_of_file h.reaches.located
  have unmet : config ∉ linksOn base .node r.indexPath := by
    intro met
    rcases h.broken located met (.inr rfl) with ⟨led, _⟩ | lost
    · exact damaged led
    · have parsed := (readIndex_ok_iff.1 read).1
      simp [textAt, lost, indexOf] at parsed
  refine ⟨?_, unmet⟩
  rintro rfl
  rw [linksOn_node_of_file h.reaches.located] at unmet
  obtain ⟨_, _, before, _⟩ := h.stored
  have reaches := h.spares.reaches h.reaches.located (h.route h.reaches.located unmet)
    (.file h.written (.inl (by simp [before])))
  exact damaged reaches.locate_node

/-- A template that is given out and can be stored again has met nothing. -/
theorem keepsOwnWays {t' : Template} {record' : Record}
    (got : (r.get name).answer fs = .ok ⟨name, origin.record name time, t⟩)
    (again : r.replace now name origin t' fs = .ok record' fs') :
    KeepsOwnWays r base origin.location (origin.configFile name) place config := by
  have got := (r.asks_get name).run_of_answer got
  obtain ⟨⟨index', record, content, t₁, indexed, found, read, parsed, same⟩, _⟩ := get_ok_iff.1 got
  obtain ⟨apart, route⟩ := h.unmet_of_readIndex (readIndex_ok_iff.2 ⟨indexed, rfl⟩)
  refine ⟨apart, route, fun met => ?_, fun met => ?_⟩
  · obtain ⟨rfl, rfl⟩ : origin.record name time = record ∧ t = t₁ := by simpa using same
    rcases h.broken h.accepts.located met (.inr rfl) with ⟨_, absurd⟩ | lost
    · exact absurd rfl
    · have blocked : textAt fs (origin.configFile name) = .error .notADirectory := by
        simp only [textAt, lost]
      have read : textAt fs (origin.configFile name) = .ok content := read
      simp [blocked] at read
  · obtain ⟨q, located⟩ := checkStaging_ok_iff.1 h.accepts.staged
    rcases h.broken located met (.inl rfl) with ⟨_, absurd⟩ | lost
    · exact absurd rfl
    · -- the directory is staged in again, but the way there is still blocked
      obtain ⟨fs₁, q', kept, workDir, staged⟩ := exists_staged_of_replace again
      rw [workDir, h.spares.workDir] at staged
      have still := locate_error_of_kept kept workDir lost (by simp)
      simp [still] at staged

end Puts

end FiledRegistry

end Scaffold
