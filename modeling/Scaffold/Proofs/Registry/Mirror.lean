import Scaffold.Proofs.Instantiation.Writing
import Scaffold.Proofs.Registry.History
import Scaffold.Proofs.Registry.Runs

/-!
# A registry in files is one in memory

Both kinds of registry go through the same history. The one in files keeps the index and
the config files in step with the map of the other one: the index lists the same records,
the config file of each record holds its template, and nothing else has come to the files
but the directories that were asked for. As long as every config file has a place of its
own, no call can tell the two apart, but for the times.
-/

namespace Scaffold

open FileSystem FileAction

namespace SortedMap

variable {κ β γ : Type} [TextKey κ]

theorem find?_map (f : β → γ) (k : κ) (l : List (κ × β)) :
    find? k (l.map fun e => (e.1, f e.2)) = (find? k l).map f := by
  induction l with
  | nil => rfl
  | cons e rest ih =>
    simp only [List.map_cons, find?, ih]
    split <;> rfl

theorem insertEntry_map (f : β → γ) (k : κ) (v : β) (l : List (κ × β)) :
    insertEntry k (f v) (l.map fun e => (e.1, f e.2))
      = (insertEntry k v l).map fun e => (e.1, f e.2) := by
  induction l with
  | nil => rfl
  | cons e rest ih =>
    simp only [List.map_cons, insertEntry]
    split
    · rfl
    · split
      · rfl
      · rw [ih]
        rfl

end SortedMap

namespace FileSystem

variable {fs fs' : FileSystem} {path : Path} {name : Text}

/-- The place that the names of a path lead to from the root. -/
def namedPlace (path : Path) : Place := placeOf [] (Path.steps path)

theorem placeOf_suffix (start : Place) {ns ss : List Text} (front : ns <+: ss) :
    placeOf start ns <:+ placeOf start ss := by
  obtain ⟨more, rfl⟩ := front
  rw [placeOf_append]
  exact ⟨_, rfl⟩

theorem namedPlace_eq_iff {p q : Path} (absolute : Path.isAbsolute p = true)
    (absolute' : Path.isAbsolute q = true) : namedPlace p = namedPlace q ↔ Path.same p q = true := by
  rw [Path.same_iff_steps absolute absolute']
  constructor
  · exact placeOf_inj
  · exact congrArg _

theorem startOf_of_isAbsolute (absolute : Path.isAbsolute path = true) (workDir : Place) :
    startOf workDir path = [] := by
  rw [startOf, if_pos absolute]

end FileSystem

namespace Origin

variable {o o' : Origin} {name m : TemplateName}

theorem namedPlace_configFile (o : Origin) (name : TemplateName) :
    namedPlace (o.configFile name) = .text name.configName :: namedPlace o.location := by
  have steps := Path.steps_join o.location name.isWord_configName
  rw [namedPlace, show o.configFile name = Path.join o.location name.configName from rfl, steps]
  simp [name.configName_notIdle, placeOf_concat, namedPlace]

theorem namedPlace_ne (differ : m ≠ name) :
    namedPlace (o.configFile m) ≠ namedPlace (o'.configFile name) := by
  rw [namedPlace_configFile, namedPlace_configFile]
  intro same
  exact TemplateName.configName_ne differ (Octets.text.inj (List.cons.inj same).1)

end Origin

namespace FiledRegistry

variable {r : FiledRegistry} {fs₀ base fs fs₁ fs₂ fs₃ fs₄ fs' : FileSystem} {place q : Place}
  {used : List (Origin × TemplateName)} {index : Index} {m : MemoryRegistry} {o : Origin}
  {name : TemplateName} {record : Record} {t : Template} {now : Instant}

/-! ## Config files with places of their own -/

/-- When the index has been opened for the first time, a template can be stored under this
name: the path of its location is absolute and has nothing but names in it, no file and no
link stands on the way, nothing stands where its config file will be, and no path is too
long. Since the index file and its directory are there by then, the location is not at or
below the index, and the config file is none of the two and not on the way to them. -/
structure IsSettled (base : FileSystem) (o : Origin) (name : TemplateName) : Prop where
  absolute : Path.isAbsolute o.location = true
  named : Named o.location
  clear : Clear base [] (Path.steps o.location)
  config : Named (o.configFile name)
  staged : refusal? (Path.join o.location ".tmp000000".toList) = none
  free : base.get? (namedPlace (o.configFile name)) = none

instance (base : FileSystem) (o : Origin) (name : TemplateName) : Decidable (IsSettled base o name) :=
  decidable_of_iff (Path.isAbsolute o.location = true ∧ Named o.location
      ∧ Clear base [] (Path.steps o.location) ∧ Named (o.configFile name)
      ∧ refusal? (Path.join o.location ".tmp000000".toList) = none
      ∧ base.get? (namedPlace (o.configFile name)) = none)
    ⟨fun ⟨absolute, named, clear, config, staged, free⟩ =>
      ⟨absolute, named, clear, config, staged, free⟩,
      fun h => ⟨h.absolute, h.named, h.clear, h.config, h.staged, h.free⟩⟩

theorem isStep_configName (named : Named (o.configFile name)) :
    IsStep name.configName ∧ Text.fits maxNameLength name.configName = true := by
  obtain ⟨front, segs, _⟩ := Path.segments_join o.location name.isWord_configName
  have mem : name.configName ∈ Path.segments (o.configFile name) := by
    rw [show o.configFile name = Path.join o.location name.configName from rfl, segs]
    simp
  refine ⟨⟨name.isWord_configName, name.configName_notIdle, name.configName_notUp,
    name.configName_noNul⟩, ?_⟩
  rcases named.names _ mem with empty | plain
  · exact absurd empty name.isWord_configName.1
  · exact plain.fits

namespace IsSettled

variable (h : IsSettled base o name)

include h

theorem leads (there : fs.isDirectoryAt (namedPlace o.location) = true) :
    Leads fs o.location (namedPlace o.location) := by
  have start := startOf_of_isAbsolute h.absolute fs.workDir
  have paved : Paved fs (startOf fs.workDir o.location) (Path.steps o.location) := by
    rw [start]
    exact paved_of_isDirectoryAt there
  have leads := paved.leads h.named.steps
  rwa [start] at leads

/-- Once its directory is there, the path of the config file leads to its place. -/
theorem locate_eq (there : fs.isDirectoryAt (namedPlace o.location) = true) :
    locate fs .entry (o.configFile name) = .ok (namedPlace (o.configFile name)) := by
  obtain ⟨step, fits⟩ := isStep_configName h.config
  rw [Origin.namedPlace_configFile]
  exact (h.leads there).locate_join step fits h.config.allowed

theorem accepts (there : fs.isDirectoryAt (namedPlace o.location) = true)
    (noDir : fs.isDirectoryAt (namedPlace (o.configFile name)) = false) :
    Accepts fs o.location (o.configFile name) (namedPlace (o.configFile name)) := by
  have leads := h.leads there
  refine ⟨leads.isDirectory_eq h.named.allowed, ?_, h.locate_eq there, noDir⟩
  have step : IsStep ".tmp000000".toList := isStep_of_isPathComponent (by decide)
  have absolute : Path.isAbsolute (Path.join o.location ".tmp000000".toList) = true := by
    rw [Path.isAbsolute_join _ step.word, h.absolute]
  have located := leads.locate_join step (by decide) h.staged
  simp only [checkStaging, query, Path.join_absolute absolute, located]
  rfl

/-- A config file that is there can be reached and removed. -/
theorem reaches {content : Octets} {mode : Mode}
    (there : fs.get? (namedPlace (o.configFile name)) = some (.file content mode)) :
    Reaches fs .entry (o.configFile name) (namedPlace (o.configFile name)) := by
  constructor
  · apply h.locate_eq
    rw [Origin.namedPlace_configFile] at there
    exact isDirectoryAt_of_get?_cons there
  · intro target
    simp [there]

theorem removeFile_eq {content : Octets} {mode : Mode}
    (there : fs.get? (namedPlace (o.configFile name)) = some (.file content mode)) :
    removeFile (o.configFile name) fs = .ok (namedPlace (o.configFile name))
      (fs.remove (namedPlace (o.configFile name))) :=
  removeFile_of_file (h.reaches there).located there

theorem isAbsolute_configFile : Path.isAbsolute (o.configFile name) = true :=
  (Path.isAbsolute_join _ name.isWord_configName).trans h.absolute

end IsSettled

/-- The config files of these stores have places of their own: none is on the way to the
location of another one. -/
structure Suits (base : FileSystem) (used : List (Origin × TemplateName)) : Prop where
  settled : ∀ u ∈ used, IsSettled base u.1 u.2
  apart : ∀ u ∈ used, ∀ v ∈ used, ¬ namedPlace (u.1.configFile u.2) <:+ namedPlace v.1.location

instance (base : FileSystem) (used : List (Origin × TemplateName)) : Decidable (Suits base used) :=
  decidable_of_iff ((∀ u ∈ used, IsSettled base u.1 u.2)
      ∧ ∀ u ∈ used, ∀ v ∈ used, ¬ namedPlace (u.1.configFile u.2) <:+ namedPlace v.1.location)
    ⟨fun ⟨settled, apart⟩ => ⟨settled, apart⟩, fun h => ⟨h.settled, h.apart⟩⟩

/-! ## Opening the index for the first time -/

/-- From `fs₀` to `base` the index was made at this place, and directories on the way. -/
structure Begins (r : FiledRegistry) (fs₀ base : FileSystem) (place : Place) : Prop where
  kept : Kept fs₀ base
  new : ∀ q x, fs₀.get? q = none → base.get? q = some x → x.isDirectory = true ∨ q = place
  unused : fs₀.get? place = none
  located : locate base .file r.indexPath = .ok place
  stored : ∃ mode, base.get? place = some (.file (.text []) mode)
  home : ∀ fs, Preserved base fs →
    createDirectories ((Path.parent? r.indexPath).getD []) fs = .ok () fs

theorem begins_of_openIndex (fresh : r.IsFresh fs₀) (opened : r.openIndex fs₀ = .ok place base) :
    Begins r fs₀ base place := by
  obtain ⟨_, fs₁, made, opened⟩ := bind_ok_iff.1 opened
  have grown : Grown fs₀ fs₁ := after_ok made ▸ grown_createDirectories _ fs₀
  obtain ⟨located, ⟨none, _, put⟩ | ⟨_, content, mode, found⟩⟩ := openFile_ok opened
  · have reaches := put.reaches_of_free located none
    have preserved : Preserved fs₁ base :=
      put.preserved (by simp [isDirectoryAt, none]) (by simp [none])
    have unused : fs₀.get? place = Option.none := by
      cases found : fs₀.get? place with
      | none => rfl
      | some x => simp [grown.kept place x found] at none
    refine ⟨fun q x found => ?_, fun q x missing found => ?_, unused, reaches.located,
      ⟨_, put.self⟩, fun fs later => ?_⟩
    · have other : q ≠ place := by
        rintro rfl
        simp [unused] at found
      rw [put.other other, grown.kept q x found]
    · by_cases this : q = place
      · exact .inr this
      · rw [put.other this] at found
        exact .inl (grown.added q x missing found)
    · exact createDirectories_again made (preserved.trans later)
  · refine absurd ?_ (fresh fs₁ place content mode grown)
    simp only [lookup, locate_node_of_file located, found]

/-! ## Files that mirror a map -/

/-- The template was stored under this name by one of the stores, and its config file is
there. -/
structure HasConfig (used : List (Origin × TemplateName)) (fs : FileSystem) (name : TemplateName)
    (record : Record) (t : Template) : Prop where
  origin : ∃ o, (o, name) ∈ used ∧ record = o.record name none
  wellFormed : t.WellFormed
  file : ∃ mode, fs.get? (namedPlace record.configFile) = some (.file (.text t.render) mode)

/-- The config files of two names lie at places of their own. -/
theorem HasConfig.apart {other : TemplateName} {record' : Record} {t' : Template}
    (h : HasConfig used fs other record t) (h' : HasConfig used fs' name record' t')
    (differ : other ≠ name) : namedPlace record.configFile ≠ namedPlace record'.configFile := by
  obtain ⟨o, _, rfl⟩ := h.origin
  obtain ⟨o', _, rfl⟩ := h'.origin
  exact Origin.namedPlace_ne differ

/-- The files hold what the map holds: the index lists its records, and the config file of
each record its template. Everything else is as it was when the index was opened, but for
directories on the way to a location. -/
structure Mirrors (base : FileSystem) (place : Place) (used : List (Origin × TemplateName))
    (fs : FileSystem) (index : Index) (m : MemoryRegistry) : Prop where
  workDir : fs.workDir = base.workDir
  stored : ∃ content mode, fs.get? place = some (.file (.text content) mode)
    ∧ Index.parse content = .ok index
  timed : index.IsTimed
  records : index.entries.map (fun e => (e.1, e.2.untimed)) = m.list
  configs : ∀ name record t, m.templates.get? name = some (record, t) →
    HasConfig used fs name record t
  rest : ∀ q, q ≠ place →
    (∀ name record t, m.templates.get? name = some (record, t) → q ≠ namedPlace record.configFile) →
    fs.get? q = base.get? q
      ∨ base.get? q = none ∧ fs.isDirectoryAt q = true ∧ ∃ u ∈ used, q <:+ namedPlace u.1.location

theorem Begins.mirrors (h : Begins r fs₀ base place) :
    Mirrors base place used base .empty .empty := by
  obtain ⟨mode, found⟩ := h.stored
  refine ⟨rfl, ⟨[], mode, found, Index.parse_nil⟩, ?_, rfl, ?_, fun _ _ _ => .inl rfl⟩
  · intro e mem
    simp [SortedMap.empty] at mem
  · intro name record t found
    simp [MemoryRegistry.empty] at found

section

variable (h : Mirrors base place used fs index m)

include h

/-- The index has the records of the map. -/
theorem Mirrors.get?_map (name : TemplateName) :
    (index.get? name).map Record.untimed = (m.templates.get? name).map Prod.fst := by
  have listed := congrArg (SortedMap.find? name) h.records
  rwa [MemoryRegistry.list, SortedMap.find?_map, SortedMap.find?_map] at listed

theorem Mirrors.get?_eq_none_iff (name : TemplateName) :
    index.get? name = none ↔ m.templates.get? name = none := by
  have same := h.get?_map name
  cases listed : index.get? name <;> cases there : m.templates.get? name <;>
    simp [listed, there] at same ⊢

theorem Mirrors.exists_template (found : index.get? name = some record) :
    ∃ t, m.templates.get? name = some (record.untimed, t) := by
  have same := h.get?_map name
  rw [found] at same
  cases there : m.templates.get? name with
  | none => simp [there] at same
  | some stored =>
    obtain ⟨known, t⟩ := stored
    rw [there, Option.map_some, Option.map_some, Option.some.injEq] at same
    exact ⟨t, by rw [same]⟩

theorem Mirrors.contains_eq (name : TemplateName) :
    index.contains name = m.templates.contains name := by
  have same := congrArg Option.isSome (h.get?_map name)
  rwa [Option.isSome_map, Option.isSome_map] at same

end

section

variable (suits : Suits base used) (h : Mirrors base place used fs index m)

include suits h

/-- Nothing that was there when the index was opened is lost. -/
theorem Mirrors.kept {x : Node} (there : base.get? q = some x) (other : q ≠ place) :
    fs.get? q = some x := by
  have away : ∀ name record t, m.templates.get? name = some (record, t) →
      q ≠ namedPlace record.configFile := by
    rintro name record t found rfl
    obtain ⟨o, mem, rfl⟩ := (h.configs name record t found).origin
    have free := (suits.settled _ mem).free
    rw [show base.get? (namedPlace (o.configFile name)) = some x from there] at free
    simp at free
  rcases h.rest q other away with same | ⟨free, _⟩
  · rw [same, there]
  · simp [there] at free

/-- The path of a config file leads to the template. -/
theorem Mirrors.reaches_config (found : m.templates.get? name = some (record, t)) :
    Reaches fs .entry record.configFile (namedPlace record.configFile) := by
  have config := h.configs name record t found
  obtain ⟨o, mem, rfl⟩ := config.origin
  obtain ⟨mode, there⟩ := config.file
  exact (suits.settled _ mem).reaches there

/-- The config files of a template and of a store have the same path exactly if they have
the same place. -/
theorem Mirrors.same_iff (mem : (o, name) ∈ used)
    (found : m.templates.get? name = some (record, t)) :
    Path.same record.configFile (o.configFile name) = true
      ↔ namedPlace record.configFile = namedPlace (o.configFile name) := by
  obtain ⟨o', mem', rfl⟩ := (h.configs name record t found).origin
  exact (namedPlace_eq_iff (suits.settled _ mem').isAbsolute_configFile
    (suits.settled _ mem).isAbsolute_configFile).symm

/-- An old config file can be removed once the new one is put in another place. -/
theorem Mirrors.removeFile_eq {x : Node} (mem : (o, name) ∈ used)
    (found : m.templates.get? name = some (record, t))
    (made : Made fs [] (Path.steps o.location) fs₂)
    (put : IsPut fs₂ (namedPlace (o.configFile name)) x fs₃)
    (differ : Path.same record.configFile (o.configFile name) = false) :
    removeFile record.configFile fs₃
        = .ok (namedPlace record.configFile) (fs₃.remove (namedPlace record.configFile))
      ∧ Removed [namedPlace record.configFile] fs₃ (fs₃.remove (namedPlace record.configFile)) := by
  have apart : namedPlace record.configFile ≠ namedPlace (o.configFile name) := by
    intro same
    simp [(h.same_iff suits mem found).2 same] at differ
  have config := h.configs name record t found
  obtain ⟨o', mem', rfl⟩ := config.origin
  obtain ⟨mode, there⟩ := config.file
  have before := made.kept _ fun free => absurd (free.symm.trans there) (by simp)
  have kept := (put.other apart).trans (before.trans there)
  have noDir : fs₃.isDirectoryAt (namedPlace (o'.record name none).configFile) = false := by
    simp [isDirectoryAt, kept, Node.isDirectory]
  exact ⟨(suits.settled _ mem').removeFile_eq kept, removed_remove noDir⟩

end

section

variable (begins : Begins r fs₀ base place) (suits : Suits base used)
  (h : Mirrors base place used fs index m)

include begins suits

/-- No config file takes the place of the index. -/
theorem Suits.config_ne (mem : (o, name) ∈ used) : namedPlace (o.configFile name) ≠ place := by
  intro same
  obtain ⟨mode, found⟩ := begins.stored
  have free := (suits.settled _ mem).free
  simp [same, found] at free

include h

theorem Mirrors.config_ne (found : m.templates.get? name = some (record, t)) :
    namedPlace record.configFile ≠ place := by
  obtain ⟨o, mem, rfl⟩ := (h.configs name record t found).origin
  exact suits.config_ne begins mem

theorem Mirrors.preserved : Preserved base fs := by
  obtain ⟨mode, found⟩ := begins.stored
  refine ⟨fun q dir => ?_, fun q target link => ?_, h.workDir⟩
  · obtain ⟨mode', there⟩ := get?_of_isDirectoryAt dir
    refine isDirectoryAt_of_get? (h.kept suits there ?_)
    rintro rfl
    simp [found] at there
  · refine h.kept suits link ?_
    rintro rfl
    simp [found] at link

/-- The way to a location stays clear. -/
theorem Mirrors.clear (mem : (o, name) ∈ used) : Clear fs [] (Path.steps o.location) := by
  intro ns front
  rcases (suits.settled _ mem).clear ns front with free | dir
  · have other : placeOf [] ns ≠ place := by
      intro same
      obtain ⟨mode, found⟩ := begins.stored
      simp [same, found] at free
    have away : ∀ n record t, m.templates.get? n = some (record, t) →
        placeOf [] ns ≠ namedPlace record.configFile := by
      rintro n record t found same
      obtain ⟨o', mem', rfl⟩ := (h.configs n record t found).origin
      refine suits.apart _ mem' _ mem ?_
      rw [show namedPlace (o'.configFile n) = _ from same.symm]
      exact placeOf_suffix [] front
    rcases h.rest _ other away with same | ⟨_, dir, _⟩
    · exact .inl (same.trans free)
    · exact .inr dir
  · exact .inr ((h.preserved begins suits).dirs _ dir)

/-- No directory comes to the place of a config file. -/
theorem Mirrors.noDir (mem : (o, name) ∈ used) :
    fs.isDirectoryAt (namedPlace (o.configFile name)) = false := by
  by_cases taken : ∃ n record t, m.templates.get? n = some (record, t)
      ∧ namedPlace (o.configFile name) = namedPlace record.configFile
  · obtain ⟨n, record, t, found, same⟩ := taken
    obtain ⟨mode, there⟩ := (h.configs n record t found).file
    simp [same, isDirectoryAt, there, Node.isDirectory]
  · have away : ∀ n record t, m.templates.get? n = some (record, t) →
        namedPlace (o.configFile name) ≠ namedPlace record.configFile :=
      fun n record t found same => taken ⟨n, record, t, found, same⟩
    rcases h.rest _ (suits.config_ne begins mem) away with same | ⟨_, _, v, mem', behind⟩
    · simp [isDirectoryAt, same, (suits.settled _ mem).free]
    · exact absurd behind (suits.apart _ mem _ mem')

/-! ## What is read -/

theorem Mirrors.reaches_index : Reaches fs .file r.indexPath place := by
  obtain ⟨mode, found⟩ := begins.stored
  obtain ⟨content, mode', there, _⟩ := h.stored
  have preserved := h.preserved begins suits
  have spares : Spares [place] base fs :=
    ⟨preserved.dirs, fun q x away _ known => h.kept suits known (by simpa using away),
      h.workDir⟩
  refine spares.reaches begins.located (fun link mem => ?_) (.file there (.inl (by simp [found])))
  rintro lost
  obtain ⟨target, isLink⟩ := isLink_of_mem_linksOn begins.located mem
  obtain rfl := List.mem_singleton.1 lost
  simp [found] at isLink

theorem Mirrors.readIndex_eq : r.readIndex fs = .ok index fs := by
  obtain ⟨content, mode, there, parsed⟩ := h.stored
  exact readIndex_of_readText ((h.reaches_index begins suits).readText_ok there) parsed

theorem Mirrors.opens : r.Opens fs place index fs := by
  obtain ⟨content, mode, there, parsed⟩ := h.stored
  refine ⟨bind_ok_iff.2 ⟨(), fs, begins.home fs (h.preserved begins suits), ?_⟩,
    content, mode, there, parsed⟩
  simp only [openFile, (h.reaches_index begins suits).located, there]

/-! ## Changes under one name -/

/-- If what is kept under one name changes, the index with it, then the files still mirror
the map when the old config file is gone, unless the new one has taken its place. -/
theorem Mirrors.change {index' : Index} {m' : MemoryRegistry}
    (workDir : fs'.workDir = fs.workDir) (timed : index'.IsTimed)
    (stored : ∃ mode, fs'.get? place = some (.file (.text index'.render) mode))
    (records : index'.entries.map (fun e => (e.1, e.2.untimed)) = m'.list)
    (others : ∀ n, n ≠ name → m'.templates.get? n = m.templates.get? n)
    (config : ∀ record t, m'.templates.get? name = some (record, t) →
      HasConfig used fs' name record t)
    (gone : ∀ record t, m.templates.get? name = some (record, t) →
      (∀ new t', m'.templates.get? name = some (new, t') →
        namedPlace record.configFile ≠ namedPlace new.configFile) →
      fs'.get? (namedPlace record.configFile) = none)
    (frame : ∀ q, q ≠ place →
      (∀ record t, m.templates.get? name = some (record, t) → q ≠ namedPlace record.configFile) →
      (∀ record t, m'.templates.get? name = some (record, t) → q ≠ namedPlace record.configFile) →
      fs'.get? q = fs.get? q
        ∨ fs.get? q = none ∧ fs'.isDirectoryAt q = true ∧ ∃ u ∈ used, q <:+ namedPlace u.1.location) :
    Mirrors base place used fs' index' m' := by
  refine ⟨workDir.trans h.workDir, ?_, timed, records, ?_, ?_⟩
  · obtain ⟨mode, there⟩ := stored
    exact ⟨_, mode, there, Index.parse_render timed⟩
  · intro n record t found
    by_cases this : n = name
    · subst this
      exact config record t found
    rw [others n this] at found
    have kept := h.configs n record t found
    obtain ⟨mode, there⟩ := kept.file
    refine ⟨kept.origin, kept.wellFormed, mode, ?_⟩
    rcases frame _ (h.config_ne begins suits found)
      (fun record' t' found' => kept.apart (h.configs name record' t' found') this)
      (fun record' t' found' => kept.apart (config record' t' found') this) with same | ⟨free, _⟩
    · exact same.trans there
    · exact absurd (free.symm.trans there) (by simp)
  · intro q other away
    by_cases old : ∃ record t, m.templates.get? name = some (record, t)
        ∧ q = namedPlace record.configFile
    · obtain ⟨record, t, found, rfl⟩ := old
      obtain ⟨o, mem, rfl⟩ := (h.configs name record t found).origin
      have missing := gone _ t found fun new t' => away name new t'
      exact .inl (missing.trans (suits.settled _ mem).free.symm)
    have before := h.rest q other fun n record t found same => by
      by_cases this : n = name
      · subst this
        exact old ⟨record, t, found, same⟩
      · exact away n record t ((others n this).trans found) same
    rcases frame q other (fun record t found same => old ⟨record, t, found, same⟩) (away name)
      with same | ⟨free, dir, on⟩
    · rwa [isDirectoryAt, same, ← isDirectoryAt]
    · rcases before with same | ⟨_, dir', _⟩
      · exact .inr ⟨same.symm.trans free, dir, on⟩
      · simp [isDirectoryAt, free] at dir'

/-- A store: the directories on the way are made, the new config file is put in its place,
the old one removed if it stood elsewhere, and the index written. -/
theorem Mirrors.store {gone : List Place} {mode : Mode} (mem : (o, name) ∈ used)
    (wf : t.WellFormed) (proper : now.IsProper) (made : Made fs [] (Path.steps o.location) fs₂)
    (put : IsPut fs₂ (namedPlace (o.configFile name)) (.file (.text t.render) configFileMode) fs₃)
    (removed : Removed gone fs₃ fs₄)
    (old : ∀ q, q ∈ gone ↔ q ≠ namedPlace (o.configFile name) ∧ ∃ record t,
      m.templates.get? name = some (record, t) ∧ q = namedPlace record.configFile)
    (written : IsPut fs₄ place (.file (.text (Index.render
      (index.insert name (o.record name (some now))))) mode) fs') :
    Mirrors base place used fs' (index.insert name (o.record name (some now)))
      ⟨m.templates.insert name (o.record name none, t)⟩ := by
  have apart := suits.config_ne begins mem
  have stays {q : Place} (other : q ≠ place) (new : q ≠ namedPlace (o.configFile name))
      (kept : q ∉ gone) : fs'.get? q = fs₂.get? q :=
    (written.other other).trans ((removed.frame q kept).trans (put.other new))
  have spared : namedPlace (o.configFile name) ∉ gone := fun lost => ((old _).1 lost).1 rfl
  have self := m.templates.get?_insert_self name (o.record name none, t)
  refine h.change begins suits ?_ (h.timed.insert (o.isTimed_record name proper) name)
    ⟨mode, written.self⟩ ?_ (fun n differ => m.templates.get?_insert_of_ne _ differ) ?_ ?_ ?_
  · rw [written.workDir, removed.workDir, put.workDir, made.workDir]
  · show (SortedMap.insertEntry name _ index.entries).map _ = (SortedMap.insertEntry name _ _).map _
    rw [← SortedMap.insertEntry_map Record.untimed, ← SortedMap.insertEntry_map Prod.fst, h.records]
    rfl
  · intro record t' found
    obtain ⟨rfl, rfl⟩ : o.record name none = record ∧ t = t' := by simpa [self] using found
    refine ⟨⟨o, mem, rfl⟩, wf, configFileMode, ?_⟩
    exact (written.other apart).trans ((removed.frame _ spared).trans put.self)
  · intro record t' found moved
    have lost : namedPlace record.configFile ∈ gone :=
      (old _).2 ⟨moved _ t self, record, t', found, rfl⟩
    exact (written.other (h.config_ne begins suits found)).trans (removed.free _ lost)
  · intro q other notOld notNew
    have kept : q ∉ gone := by
      intro lost
      obtain ⟨_, record, t', found, same⟩ := (old q).1 lost
      exact notOld record t' found same
    have same := stays other (notNew _ t self) kept
    by_cases new : fs.get? q = none ∧ ∃ ns, ns <+: Path.steps o.location ∧ q = placeOf [] ns
    · obtain ⟨free, ns, front, rfl⟩ := new
      have dir := isDirectoryAt_of_get? (same.trans (made.new ns front free))
      exact .inr ⟨free, dir, _, mem, placeOf_suffix [] front⟩
    · exact .inl (same.trans (made.kept q fun free ns front eq => new ⟨free, ns, front, eq⟩))

/-- A deletion: the config file is removed and the index written. -/
theorem Mirrors.erase {mode : Mode} (found : m.templates.get? name = some (record, t))
    (removed : Removed [namedPlace record.configFile] fs fs₂)
    (written : IsPut fs₂ place (.file (.text (Index.render (index.erase name))) mode) fs') :
    Mirrors base place used fs' (index.erase name) ⟨m.templates.erase name⟩ := by
  refine h.change begins suits ?_ (h.timed.erase name) ⟨mode, written.self⟩ ?_
    (fun n differ => m.templates.get?_erase_of_ne differ) ?_ ?_ ?_
  · rw [written.workDir, removed.workDir]
  · show (index.entries.filter _).map _ = (m.templates.entries.filter _).map _
    have same := congrArg (List.filter fun e => TextKey.text e.1 ≠ TextKey.text name) h.records
    rw [MemoryRegistry.list, List.filter_map, List.filter_map] at same
    exact same
  · intro new t' kept
    simp at kept
  · intro old t' there _
    obtain ⟨rfl, rfl⟩ : record = old ∧ t = t' := by simpa [found] using there
    exact (written.other (h.config_ne begins suits found)).trans (removed.free _ (by simp))
  · intro q other notOld _
    refine .inl ((written.other other).trans (removed.frame q ?_))
    simpa using notOld record t found

end

end FiledRegistry

end Scaffold
