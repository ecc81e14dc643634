import Scaffold.Proofs.Registry.Filed
import Scaffold.Proofs.Template.Stored

/-!
# Storing a template

To store a template, its config file is put in its place, an old one may be removed, and
the index is written. Whether the registry afterwards holds the template, and all others as
before, depends on where the new config file is put: not at the place of the index file,
not at that of a link on the way to the index or to a config file, and not where the old
config file of the template stands under another path, which is removed. Nothing else can
go wrong.
-/

namespace Scaffold

open FileSystem FileAction

namespace FiledRegistry

variable {r : FiledRegistry} {fs fs' : FileSystem} {place config : Place} {path : Path}
  {index : Index} {name m : TemplateName} {record : Record} {t : Template} {stale : List Place}

/-- At this place a config file replaces no link on the way to a config file. -/
structure KeepsWays (fs : FileSystem) (index : Index) (name : TemplateName) (path : Path)
    (config : Place) : Prop where
  own : config ∉ linksOn fs .entry path
  others : ∀ m record, m ≠ name → index.get? m = some record →
    config ∉ linksOn fs .entry record.configFile

/-- At this place a config file meets neither the index nor what leads to it or to another
config file, and it is not removed again with the old one. -/
structure Separate (r : FiledRegistry) (fs : FileSystem) (index : Index) (name : TemplateName)
    (path : Path) (place config : Place) : Prop where
  ways : KeepsWays fs index name path config
  apart : config ≠ place
  route : config ∉ linksOn fs .node r.indexPath
  old : ∀ record, index.get? name = some record → Path.same record.configFile path = false →
    locate fs .entry record.configFile ≠ .ok config

instance : Decidable (KeepsWays fs index name path config) :=
  decidable_of_iff ((∀ link ∈ linksOn fs .entry path, link ≠ config)
      ∧ ∀ e ∈ index.entries, e.1 ≠ name →
        ∀ link ∈ linksOn fs .entry e.2.configFile, link ≠ config)
    ⟨fun ⟨own, others⟩ => ⟨List.forall_mem_ne'.1 own, fun m record differ found =>
        List.forall_mem_ne'.1 (others (m, record) (SortedMap.mem_entries_iff.2 found) differ)⟩,
      fun h => ⟨List.forall_mem_ne'.2 h.own, fun e mem differ =>
        List.forall_mem_ne'.2 (h.others e.1 e.2 differ (SortedMap.mem_entries_iff.1 mem))⟩⟩

private theorem toOption_ne_some_iff {x : Except IoError Place} :
    x.toOption ≠ some config ↔ x ≠ .ok config := by
  cases x <;> simp [Except.toOption]

instance : Decidable (Separate r fs index name path place config) :=
  decidable_of_iff (KeepsWays fs index name path config ∧ config ≠ place
      ∧ (∀ link ∈ linksOn fs .node r.indexPath, link ≠ config)
      ∧ ∀ old ∈ index.get? name, Path.same old.configFile path = false →
        (locate fs .entry old.configFile).toOption ≠ some config)
    ⟨fun ⟨ways, apart, route, old⟩ => ⟨ways, apart, List.forall_mem_ne'.1 route,
        fun record found differ => toOption_ne_some_iff.1 (old record found differ)⟩,
      fun h => ⟨h.ways, h.apart, List.forall_mem_ne'.2 h.route,
        fun record found differ => toOption_ne_some_iff.2 (h.old record found differ)⟩⟩

/-- The registry has this template under the name, listed in the place of the old record or,
if there is none, in the order of the names, and every other template as before. -/
structure Stores (r : FiledRegistry) (name : TemplateName) (old : Option Record) (record : Record)
    (t : Template) (fs fs' : FileSystem) : Prop where
  list : ∃ front back,
    r.list.answer fs = .ok (front ++ old.toList.map (fun o => (name, o)) ++ back)
      ∧ r.list.answer fs' = .ok (front ++ (name, record) :: back)
      ∧ (∀ e ∈ front, e.1.text < name.text) ∧ ∀ e ∈ back, name.text < e.1.text
  get : (r.get name).answer fs' = .ok ⟨name, record, t⟩
  others : ∀ m, m ≠ name → (r.contains m).answer fs' = (r.contains m).answer fs
    ∧ (r.get m).answer fs' = (r.get m).answer fs

/-- From `fs` to `fs'` a config file was put in its place, perhaps an old one was removed,
and the index was written unless the config file has taken its place. -/
structure Stage (r : FiledRegistry) (index : Index) (name : TemplateName) (record : Record)
    (t : Template) (place config : Place) (stale : List Place) (fs fs' : FileSystem) : Prop where
  order : r.Indexed fs place index
  timed : record.IsTimed
  isOf : record.IsOf name
  located : locate fs .entry record.configFile = .ok config
  spares : Spares (config :: place :: stale) fs fs'
  frame : ∀ q, q ∉ config :: place :: stale → fs'.get? q = fs.get? q
  written : config ∉ stale → ∃ mode, fs'.get? config = some (.file (.text t.render) mode)
  removed : config ∈ stale → fs'.get? config = none
  indexed : config ≠ place →
    ∃ mode, fs'.get? place = some (.file (.text (Index.render (index.insert name record))) mode)
  stale_located : ∀ q ∈ stale, ∃ old, index.get? name = some old
    ∧ locate fs .entry old.configFile = .ok q
  mem_stale : config ∈ stale ↔ ∃ old, index.get? name = some old
    ∧ Path.same old.configFile record.configFile = false
    ∧ locate fs .entry old.configFile = .ok config

namespace Stage

variable (h : Stage r index name record t place config stale fs fs')

include h

theorem isTimed_insert : Index.IsTimed (index.insert name record) :=
  h.order.timed.insert h.timed name

theorem place_not_mem_stale : place ∉ stale := by
  intro mem
  obtain ⟨old, found, located⟩ := h.stale_located place mem
  exact h.order.config_ne found located rfl

/-- What is not spared, but for the place of the config file, is no link. -/
theorem not_link {q : Place} (mem : q ∈ config :: place :: stale) (other : q ≠ config)
    (target : Path) : fs.get? q ≠ some (.link target) := by
  rcases List.mem_cons.1 mem with rfl | mem
  · exact absurd rfl other
  rcases List.mem_cons.1 mem with rfl | mem
  · exact h.order.reaches.notLink target
  · obtain ⟨old, found, located⟩ := h.stale_located q mem
    exact (h.order.reaches_config found located).notLink target

/-- If the config file takes the place of no link on a path, the path keeps its way. -/
theorem route {goal : Goal} {q : Place} (located : locate fs goal path = .ok q)
    (apart : config ∉ linksOn fs goal path) :
    ∀ link ∈ linksOn fs goal path, link ∉ config :: place :: stale := by
  intro link mem lost
  obtain ⟨target, isLink⟩ := isLink_of_mem_linksOn located mem
  refine h.not_link lost (fun same => ?_) target isLink
  exact apart (same ▸ mem)

/-- Where a link is on a way, no old config file is removed. -/
theorem not_mem_stale {goal : Goal} {q : Place} (located : locate fs goal path = .ok q)
    (met : config ∈ linksOn fs goal path) : config ∉ stale := by
  intro mem
  obtain ⟨old, found, located'⟩ := h.stale_located config mem
  exact not_mem_linksOn located (h.order.reaches_config found located').notLink met

/-- If the config file takes the place of a link on a way, the way ends there. -/
theorem broken {goal : Goal} {q : Place} (located : locate fs goal path = .ok q)
    (met : config ∈ linksOn fs goal path) :
    (locate fs' .node path = .ok config ∧ goal ≠ .entry)
      ∨ locate fs' .node path = .error .notADirectory :=
  h.spares.broken located met (fun _ mem other target => h.not_link mem other target)
    (h.written (h.not_mem_stale located met)) (.inr rfl)

/-! ## The index -/

/-- If the index file is met, the index is lost. -/
theorem isLost (met : config = place ∨ config ∈ linksOn fs .node r.indexPath) : r.IsLost fs' := by
  intro fs'' grown
  have damaged (reaches : Reaches fs' .node r.indexPath config)
      (written : ∃ mode, fs'.get? config = some (.file (.text t.render) mode)) :
      ∃ e, r.readIndex fs'' = .error e fs'' := by
    obtain ⟨mode, found⟩ := written
    have read := (reaches.grown grown).readText_ok (grown.kept config _ found)
    exact ⟨_, readIndex_of_parse_error read (Index.parse_template t)⟩
  by_cases onWay : config ∈ linksOn fs .node r.indexPath
  · have written := h.written (h.not_mem_stale h.order.reaches.located onWay)
    rcases h.broken h.order.reaches.located onWay with ⟨located, _⟩ | lost
    · obtain ⟨mode, found⟩ := written
      exact damaged ⟨located, by simp [found]⟩ ⟨mode, found⟩
    · have refused := readText_of_locate_error (locate_error_of_grown grown lost (by simp))
      exact ⟨_, readIndex_of_error refused (by simp)⟩
  · obtain rfl := met.resolve_right onWay
    have written := h.written h.place_not_mem_stale
    obtain ⟨mode, found⟩ := written
    obtain ⟨_, _, before, _⟩ := h.order.stored
    exact damaged (h.spares.reaches h.order.reaches.located (h.route h.order.reaches.located onWay)
      (.file found (.inl (by simp [before])))) ⟨mode, found⟩

/-- If it is not, the new index stands there. -/
theorem reaches_index (apart : config ≠ place) (route : config ∉ linksOn fs .node r.indexPath) :
    Reaches fs' .node r.indexPath place := by
  obtain ⟨_, _, before, _⟩ := h.order.stored
  obtain ⟨mode, found⟩ := h.indexed apart
  exact h.spares.reaches h.order.reaches.located (h.route h.order.reaches.located route)
    (.file found (.inl (by simp [before])))

theorem readIndex_eq (apart : config ≠ place) (route : config ∉ linksOn fs .node r.indexPath) :
    r.readIndex fs' = .ok (index.insert name record) fs' := by
  obtain ⟨mode, found⟩ := h.indexed apart
  exact readIndex_of_readText ((h.reaches_index apart route).readText_ok found)
    (Index.parse_render h.isTimed_insert)

/-! ## The config files -/

/-- The path of the config file still leads to its place. -/
theorem reaches_config (own : config ∉ linksOn fs .entry record.configFile) :
    Reaches fs' .entry record.configFile config := by
  refine h.spares.reaches h.located (h.route h.located own) ?_
  by_cases gone : config ∈ stale
  · exact .free (h.removed gone)
  · obtain ⟨mode, found⟩ := h.written gone
    exact .file found (.inr (.inr ⟨rfl, h.isOf.getLast?_ne⟩))

/-- A config file of another template is spared if no link on its way is replaced. -/
theorem spared {other : Record} {q : Place} (differ : m ≠ name)
    (found : index.get? m = some other) (reaches : Reaches fs .entry other.configFile q)
    (route : config ∉ linksOn fs .entry other.configFile) :
    Reaches fs' .entry other.configFile q ∧ fs'.get? q = fs.get? q := by
  have isOf := h.order.isOf m other found
  have away : q ∉ config :: place :: stale := by
    intro mem
    rcases List.mem_cons.1 mem with rfl | mem
    · exact h.isOf.place_ne isOf differ h.located reaches.located rfl
    rcases List.mem_cons.1 mem with rfl | mem
    · exact h.order.config_ne found reaches.located rfl
    · obtain ⟨old, found', located⟩ := h.stale_located q mem
      exact (h.order.isOf name old found').place_ne isOf differ located reaches.located rfl
  have same := h.frame q away
  exact ⟨h.spares.reaches reaches.located (h.route reaches.located route)
    (.of_eq same reaches.notLink), same⟩

/-- Its template is found as far as its config file is. -/
theorem get_spared {other : Record} {q : Place} (apart : config ≠ place)
    (route : config ∉ linksOn fs .node r.indexPath) (differ : m ≠ name)
    (found : index.get? m = some other) (reaches : Reaches fs .entry other.configFile q)
    (unmet : config ∉ linksOn fs .entry other.configFile) :
    (r.get m).answer fs' = (configAnswer m other (fs.get? q)).map (⟨m, other, ·⟩) := by
  obtain ⟨reaches', same⟩ := h.spared differ found reaches unmet
  rw [get_answer_some (h.readIndex_eq apart route)
    ((index.get?_insert_of_ne record differ).trans found) reaches', same]

/-! ## What is stored -/

/-- A registry is in order again if neither its index nor a way to a config file is met. -/
theorem in_order (ways : KeepsWays fs index name record.configFile config)
    (apart : config ≠ place) (route : config ∉ linksOn fs .node r.indexPath) :
    r.Indexed fs' place (index.insert name record) := by
  obtain ⟨mode, written⟩ := h.indexed apart
  refine ⟨h.reaches_index apart route, ⟨_, mode, written, Index.parse_render h.isTimed_insert⟩,
    h.isTimed_insert, fun m other found => ?_, fun m other found => ?_⟩
  all_goals
    rw [SortedMap.get?_insert] at found
    split at found
  · rename_i same
    obtain rfl := TextKey.text_injective m name same
    obtain rfl := Option.some.inj found
    exact h.isOf
  · exact h.order.isOf m other found
  · obtain rfl := Option.some.inj found
    exact ⟨config, h.reaches_config ways.own, apart⟩
  · rename_i differ
    have differ : m ≠ name := fun same => differ (congrArg TextKey.text same)
    obtain ⟨q, reaches, apart⟩ := h.order.configs m other found
    exact ⟨q, (h.spared differ found reaches (ways.others m other differ found)).1, apart⟩

/-- Whatever is met, the registry is in order or its index is lost. -/
theorem sound_or_isLost (ways : KeepsWays fs index name record.configFile config) :
    r.Sound fs' (index.insert name record) ∨ r.IsLost fs' := by
  by_cases met : config = place ∨ config ∈ linksOn fs .node r.indexPath
  · exact .inr (h.isLost met)
  · rw [not_or] at met
    exact .inl (.indexed (h.in_order ways met.1 met.2))

/-- The new template is found if its config file stays and meets neither the index nor what
leads to one of the two. -/
theorem get_stored (wf : t.WellFormed) (own : config ∉ linksOn fs .entry record.configFile)
    (apart : config ≠ place) (route : config ∉ linksOn fs .node r.indexPath)
    (kept : config ∉ stale) : (r.get name).answer fs' = .ok ⟨name, record, t⟩ := by
  obtain ⟨mode, found⟩ := h.written kept
  rw [get_answer_some (h.readIndex_eq apart route) (SortedMap.get?_insert_self ..)
    (h.reaches_config own), found, configAnswer_text, Template.parse_render wf]
  rfl

/-- A separate config file leaves everything else as it was. -/
theorem stores (wf : t.WellFormed)
    (separate : Separate r fs index name record.configFile place config) :
    Stores r name (index.get? name) record t fs fs' := by
  have before := h.order.readIndex_eq
  have after := h.readIndex_eq separate.apart separate.route
  have kept : config ∉ stale := by
    intro mem
    obtain ⟨old, found, differ, located⟩ := h.mem_stale.1 mem
    exact separate.old old found differ located
  refine ⟨?_, h.get_stored wf separate.ways.own separate.apart separate.route kept,
    fun m differ => ⟨?_, ?_⟩⟩
  · obtain ⟨front, back, parts, set, smaller, larger⟩ :=
      SortedMap.insertEntry_split name record index.ascending
    refine ⟨front, back, ?_, ?_, smaller, larger⟩
    · rw [list_answer before]
      exact congrArg Except.ok parts
    · rw [list_answer after]
      exact congrArg Except.ok set
  · rw [contains_answer before, contains_answer after, SortedMap.contains,
      index.get?_insert_of_ne record differ, SortedMap.contains]
  · cases found : index.get? m with
    | none =>
      rw [get_answer_none before found,
        get_answer_none after ((index.get?_insert_of_ne record differ).trans found)]
    | some other =>
      obtain ⟨q, reaches, _⟩ := h.order.configs m other found
      rw [get_answer_some before found reaches, h.get_spared separate.apart separate.route differ
        found reaches (separate.ways.others m other differ found)]

/-- Over a link that is replaced no template is found. -/
theorem get_of_met {other : Record} {q : Place} (apart : config ≠ place)
    (route : config ∉ linksOn fs .node r.indexPath)
    (found : (index.insert name record).get? m = some other)
    (located : locate fs .entry other.configFile = .ok q)
    (met : config ∈ linksOn fs .entry other.configFile) :
    (r.get m).answer fs' = .error (.io .notADirectory) := by
  rcases h.broken located met with ⟨_, absurd⟩ | lost
  · simp at absurd
  · obtain ⟨e, answer, refused⟩ := get_answer_error (h.readIndex_eq apart route) found
      (readText_of_locate_error lost)
    rw [answer, refused (by simp)]

/-- If the template is found and no other one is blocked, the config file is separate. -/
theorem separate (get : (r.get name).answer fs' = .ok ⟨name, record, t⟩)
    (others : ∀ m, m ≠ name → (r.get m).answer fs' ≠ .error (.io .notADirectory)) :
    Separate r fs index name record.configFile place config := by
  have unmet : ¬ (config = place ∨ config ∈ linksOn fs .node r.indexPath) := by
    intro met
    obtain ⟨e, refused⟩ := h.isLost met fs' (.refl fs')
    simp [get_answer_readIndex_error refused] at get
  obtain ⟨apart, route⟩ := not_or.1 unmet
  have self : (index.insert name record).get? name = some record := SortedMap.get?_insert_self ..
  have own : config ∉ linksOn fs .entry record.configFile := by
    intro met
    simp [h.get_of_met apart route self h.located met] at get
  refine ⟨⟨own, fun m other differ found met => ?_⟩, apart, route,
    fun old found differ located => ?_⟩
  · obtain ⟨q, reaches, _⟩ := h.order.configs m other found
    exact others m differ (h.get_of_met apart route
      ((index.get?_insert_of_ne record differ).trans found) reaches.located met)
  · have gone := h.removed (h.mem_stale.2 ⟨old, found, differ, located⟩)
    rw [get_answer_some (h.readIndex_eq apart route) self (h.reaches_config own), gone] at get
    simp [configAnswer, readNode, Except.map] at get

end Stage

end FiledRegistry

end Scaffold
