import Scaffold.Proofs.Registry.Mirror

/-!
# Histories of both registries

One registry keeps its templates in files, the other one in memory, and both go through
the same history. Step by step the files mirror the map, from the first call that opens the
index on. So all answers are the same, but for the times, and the config files that are
there are those of the records.
-/

namespace Scaffold

open FileSystem FileAction

namespace FiledRegistry

variable {r : FiledRegistry} {fs₀ base fs fs₁ fs₂ : FileSystem} {place q : Place}
  {used : List (Origin × TemplateName)} {index : Index} {m : MemoryRegistry} {o : Origin}
  {name : TemplateName} {record : Record} {t : Template} {now : Instant} {e : Error} {c : Call}
  {calls : List Call}

namespace Call

/-- Under which name the call stores a template, and what it is told about it. -/
def store? : Call → Option (Origin × TemplateName)
  | put _ name origin _ | replace _ name origin _ => some (origin, name)
  | _ => none

/-- If the call stores a template, it is well-formed. -/
def IsWellFormed : Call → Prop
  | put _ _ _ t | replace _ _ _ t => t.WellFormed
  | _ => True

end Call

/-! ## Before the index is opened -/

/-- The registry has not been opened yet, or its files mirror the map. -/
inductive Tracks (fs₀ base : FileSystem) (place : Place) (used : List (Origin × TemplateName)) :
    FileSystem → MemoryRegistry → Prop
  | fresh : Tracks fs₀ base place used fs₀ .empty
  | mirrored {fs : FileSystem} {index : Index} {m : MemoryRegistry}
    (h : Mirrors base place used fs index m) : Tracks fs₀ base place used fs m

/-- The index can be read, and when it is opened the files mirror the map. -/
structure Opening (r : FiledRegistry) (base : FileSystem) (place : Place)
    (used : List (Origin × TemplateName)) (fs : FileSystem) (index : Index) (m : MemoryRegistry)
    (fs₁ : FileSystem) : Prop where
  read : r.readIndex fs = .ok index fs
  opens : r.Opens fs place index fs₁
  mirrors : Mirrors base place used fs₁ index m
  already : ∀ name record, index.get? name = some record → fs₁ = fs

section

variable (fresh : r.IsFresh fs₀) (opened : r.openIndex fs₀ = .ok place base)
  (suits : Suits base used)

include fresh opened suits

theorem Tracks.exists_opening (h : Tracks fs₀ base place used fs m) :
    ∃ index fs₁, Opening r base place used fs index m fs₁ := by
  have begins := begins_of_openIndex fresh opened
  cases h with
  | fresh =>
    have sound : r.Sound fs₀ .empty := .fresh fresh
    exact ⟨.empty, base, (sound.openIndex_ok opened).1, sound.opens opened, begins.mirrors,
      fun name record found => by simp at found⟩
  | @mirrored _ index _ h =>
    exact ⟨index, fs, h.readIndex_eq begins suits, h.opens begins suits, h, fun _ _ _ => rfl⟩

/-! ## Stores -/

/-- The directory of a config file can be made, and then takes the file. -/
theorem Mirrors.exists_made (h : Mirrors base place used fs index m) (mem : (o, name) ∈ used) :
    ∃ fs', createDirectories o.location fs = .ok () fs'
      ∧ Made fs [] (Path.steps o.location) fs'
      ∧ Accepts fs' o.location (o.configFile name) (namedPlace (o.configFile name)) := by
  have begins := begins_of_openIndex fresh opened
  have settled := suits.settled _ mem
  have start := startOf_of_isAbsolute settled.absolute fs.workDir
  have clear := h.clear begins suits mem
  obtain ⟨fs', run, made⟩ := createDirectories_of_clear
    (fun a mem => settled.named.of_mem_ancestors mem)
    (show fs.isDirectoryAt (startOf fs.workDir o.location) = true by rw [start]; simp)
    (show Clear fs (startOf fs.workDir o.location) _ by rwa [start])
  rw [start] at made
  refine ⟨fs', run, made, settled.accepts (made.paved clear _ List.prefix_rfl) ?_⟩
  have same : fs'.get? (namedPlace (o.configFile name)) = fs.get? (namedPlace (o.configFile name)) := by
    refine made.kept _ fun _ ns front => ?_
    rw [Origin.namedPlace_configFile]
    exact (placeOf_ne_of_isPrefix front).symm
  rw [isDirectoryAt, same, ← isDirectoryAt]
  exact h.noDir begins suits mem

end

/-! ## One call -/

/-- Both registries give the same answer but for the times, and they still go together. -/
def Agrees (r : FiledRegistry) (fs₀ base : FileSystem) (place : Place)
    (used : List (Origin × TemplateName)) (fs : FileSystem) (m : MemoryRegistry) (c : Call) : Prop :=
  (c.answer r fs).map Answer.untimed = (c.onMemory m).1
    ∧ Tracks fs₀ base place used (c.after r fs) (c.onMemory m).2

section

variable {α : Type} {x : Action α} {y : Except Error (α × MemoryRegistry)} {f : α → Answer}
  {a b : α} {fs' : FileSystem} {m' : MemoryRegistry}

/-- A call that succeeds on both sides. -/
private theorem agrees_of_ok (run : x fs = .ok a fs') (kept : y = .ok (b, m'))
    (same : (f a).untimed = f b) (mirrors : Tracks fs₀ base place used fs' m') :
    ((x.answer fs).map f).map Answer.untimed = (Call.onMemory.ran f m y).1
      ∧ Tracks fs₀ base place used (x.after fs) (Call.onMemory.ran f m y).2 := by
  rw [Action.answer_of_ok run, Action.after_of_ok run, kept]
  exact ⟨congrArg Except.ok same, mirrors⟩

/-- A call that is refused on both sides. -/
private theorem agrees_of_error (run : x fs = .error e fs') (refused : y = .error e)
    (mirrors : Tracks fs₀ base place used fs' m) :
    ((x.answer fs).map f).map Answer.untimed = (Call.onMemory.ran f m y).1
      ∧ Tracks fs₀ base place used (x.after fs) (Call.onMemory.ran f m y).2 := by
  rw [Action.answer_of_error run, Action.after_of_error run, refused]
  exact ⟨rfl, mirrors⟩

/-- A call that only asks. -/
private theorem agrees_of_asks (asks : Action.Asks x) (kept : y.map Prod.snd = y.map fun _ => m)
    (same : ((x.answer fs).map f).map Answer.untimed = (y.map Prod.fst).map f)
    (mirrors : Tracks fs₀ base place used fs m) :
    ((x.answer fs).map f).map Answer.untimed = (Call.onMemory.ran f m y).1
      ∧ Tracks fs₀ base place used (x.after fs) (Call.onMemory.ran f m y).2 := by
  rw [asks fs, same]
  cases y with
  | error e => exact ⟨rfl, mirrors⟩
  | ok result =>
    obtain ⟨a, m'⟩ := result
    obtain rfl : m' = m := Except.ok.inj kept
    exact ⟨rfl, mirrors⟩

end

section

variable (h : Opening r base place used fs index m fs₁)

include h

theorem Opening.agrees_contains (tracks : Tracks fs₀ base place used fs m) (name : TemplateName) :
    Agrees r fs₀ base place used fs m (.contains name) := by
  refine agrees_of_asks (r.asks_contains name) rfl ?_ tracks
  rw [contains_answer h.read, h.mirrors.contains_eq]
  rfl

theorem Opening.agrees_list (tracks : Tracks fs₀ base place used fs m) :
    Agrees r fs₀ base place used fs m .list := by
  refine agrees_of_asks r.asks_list rfl ?_ tracks
  rw [list_answer h.read]
  exact congrArg (fun entries => Except.ok (Answer.list entries)) h.mirrors.records

theorem Opening.agrees_get (suits : Suits base used) (tracks : Tracks fs₀ base place used fs m)
    (name : TemplateName) : Agrees r fs₀ base place used fs m (.get name) := by
  cases listed : index.get? name with
  | none =>
    have missing : m.get name = .error (.templateNotFound name.text) := by
      rw [MemoryRegistry.get, (h.mirrors.get?_eq_none_iff name).1 listed]
    refine agrees_of_asks (r.asks_get name) (by rw [missing]; rfl) ?_ tracks
    rw [get_answer_none h.read listed, missing]
    rfl
  | some record =>
    obtain ⟨t, found⟩ := h.mirrors.exists_template listed
    have kept : m.get name = .ok ⟨name, record.untimed, t⟩ := by
      rw [MemoryRegistry.get, found]
    have config := h.mirrors.configs name _ t found
    obtain ⟨mode, there⟩ := config.file
    have reaches := h.mirrors.reaches_config suits found
    obtain rfl := h.already name record listed
    refine agrees_of_asks (r.asks_get name) (by rw [kept]; rfl) ?_ tracks
    rw [get_answer_some h.read listed reaches, there, configAnswer_text,
      Template.parse_render config.wellFormed, kept]
    rfl

end

section

variable (fresh : r.IsFresh fs₀) (opened : r.openIndex fs₀ = .ok place base)
  (suits : Suits base used) (h : Opening r base place used fs index m fs₁)

include fresh opened suits h

theorem Opening.agrees_put (mem : (o, name) ∈ used) (wf : t.WellFormed) (proper : now.IsProper) :
    Agrees r fs₀ base place used fs m (.put now name o t) := by
  have begins := begins_of_openIndex fresh opened
  cases listed : index.get? name with
  | some record =>
    have taken : m.templates.contains name = true := by
      rw [← h.mirrors.contains_eq, SortedMap.contains, listed]
      rfl
    exact agrees_of_error (h.opens.put_error now t listed) (if_pos taken) (.mirrored h.mirrors)
  | none =>
    have free := (h.mirrors.get?_eq_none_iff name).1 listed
    have new : ¬ m.templates.contains name = true := by simp [SortedMap.contains, free]
    obtain ⟨fs₂, made, way, accepts⟩ := h.mirrors.exists_made fresh opened suits mem
    obtain ⟨fs₃, fs', mode, run, put, written⟩ :=
      h.opens.put_ok now t listed made accepts (suits.config_ne begins mem)
    have mirrors := h.mirrors.store begins suits mem wf proper way put (removed_nil fs₃)
      (by simp [free]) written
    exact agrees_of_ok run (if_neg new) rfl (.mirrored mirrors)

theorem Opening.agrees_replace (mem : (o, name) ∈ used) (wf : t.WellFormed)
    (proper : now.IsProper) : Agrees r fs₀ base place used fs m (.replace now name o t) := by
  have begins := begins_of_openIndex fresh opened
  cases listed : index.get? name with
  | none =>
    have free := (h.mirrors.get?_eq_none_iff name).1 listed
    have missing : ¬ m.templates.contains name = true := by simp [SortedMap.contains, free]
    exact agrees_of_error (h.opens.replace_error now t listed) (if_neg missing)
      (.mirrored h.mirrors)
  | some old =>
    obtain ⟨t', found⟩ := h.mirrors.exists_template listed
    have taken : m.templates.contains name = true := by simp [SortedMap.contains, found]
    obtain ⟨fs₂, made, way, accepts⟩ := h.mirrors.exists_made fresh opened suits mem
    have removal {fs₃ : FileSystem} (put : IsPut fs₂ (namedPlace (o.configFile name))
        (.file (.text t.render) configFileMode) fs₃) :=
      h.mirrors.removeFile_eq suits mem found way put
    obtain ⟨fs₃, gone, fs₄, fs', mode, run, put, which, written⟩ :=
      h.opens.replace_ok now t listed made accepts (suits.config_ne begins mem)
        fun fs₃ put differ => ⟨_, _, (removal put differ).1, h.mirrors.config_ne begins suits found⟩
    have removed : Removed gone fs₃ fs₄ ∧ ∀ q, q ∈ gone ↔ q ≠ namedPlace (o.configFile name)
        ∧ q = namedPlace old.untimed.configFile := by
      rcases which with ⟨same, rfl, rfl⟩ | ⟨differ, q, rfl, gone⟩
      · have same := (h.mirrors.same_iff suits mem found).1 same
        exact ⟨removed_nil _, by simp [same]⟩
      · obtain ⟨left, removed⟩ := removal put differ
        have apart : namedPlace old.untimed.configFile ≠ namedPlace (o.configFile name) :=
          fun same => absurd (differ.symm.trans ((h.mirrors.same_iff suits mem found).2 same)) (by simp)
        cases left.symm.trans gone
        refine ⟨removed, fun q => ?_⟩
        rw [List.mem_singleton]
        exact ⟨fun eq => ⟨eq ▸ apart, eq⟩, And.right⟩
    have mirrors := h.mirrors.store begins suits mem wf proper way put removed.1
      (by simpa [found] using removed.2) written
    exact agrees_of_ok run (if_pos taken) rfl (.mirrored mirrors)

theorem Opening.agrees_delete (name : TemplateName) :
    Agrees r fs₀ base place used fs m (.delete name) := by
  have begins := begins_of_openIndex fresh opened
  cases listed : index.get? name with
  | none =>
    have missing : m.get name = .error (.templateNotFound name.text) := by
      rw [MemoryRegistry.get, (h.mirrors.get?_eq_none_iff name).1 listed]
    refine agrees_of_error (h.opens.delete_error listed) ?_ (.mirrored h.mirrors)
    rw [MemoryRegistry.delete, missing]
    rfl
  | some record =>
    obtain ⟨t, found⟩ := h.mirrors.exists_template listed
    have kept : m.delete name = .ok (⟨name, record.untimed, t⟩, ⟨m.templates.erase name⟩) := by
      rw [MemoryRegistry.delete, MemoryRegistry.get, found]
      rfl
    have config := h.mirrors.configs name _ t found
    have reaches := h.mirrors.reaches_config suits found
    obtain ⟨mode, there⟩ := config.file
    obtain ⟨o, mem, origin⟩ := config.origin
    have isOf : record.untimed.IsOf name := origin ▸ o.isOf_record name none
    have noDir : fs₁.isDirectoryAt (namedPlace record.untimed.configFile) = false := by
      simp [isDirectoryAt, there, Node.isDirectory]
    obtain ⟨fs', mode', run, written⟩ := h.opens.delete_ok config.wellFormed listed
      (reaches.readText_ok there) (removeFile_of_file reaches.located there)
      (h.mirrors.config_ne begins suits found)
    have mirrors := h.mirrors.erase begins suits found (removed_remove noDir) written
    exact agrees_of_ok run kept rfl (.mirrored mirrors)

/-- Whatever is called, both registries still go together afterwards. -/
theorem Opening.agrees (tracks : Tracks fs₀ base place used fs m) (timed : c.IsTimed)
    (wf : c.IsWellFormed) (uses : ∀ u ∈ c.store?, u ∈ used) :
    Agrees r fs₀ base place used fs m c := by
  cases c with
  | contains name => exact h.agrees_contains tracks name
  | get name => exact h.agrees_get suits tracks name
  | list => exact h.agrees_list tracks
  | put now name o t => exact h.agrees_put fresh opened suits (uses _ rfl) wf timed
  | replace now name o t => exact h.agrees_replace fresh opened suits (uses _ rfl) wf timed
  | delete name => exact h.agrees_delete fresh opened suits name

end

/-! ## The config files that are there -/

/-- The index can be read. The config file of each of its records is there and is new, and
no other new file is there but the index. What was there before is still there. -/
structure HoldsConfigs (r : FiledRegistry) (fs₀ fs : FileSystem) (index : Index) : Prop where
  read : r.readIndex fs = .ok index fs
  configs : ∀ name record, index.get? name = some record →
    ∃ q content mode, locate fs .entry record.configFile = .ok q ∧ fs₀.get? q = none
      ∧ fs.get? q = some (.file content mode)
  only : ∀ q x, fs₀.get? q = none → fs.get? q = some x → x.isDirectory = false →
    locate fs .node r.indexPath = .ok q ∨ ∃ name record, index.get? name = some record
      ∧ locate fs .entry record.configFile = .ok q
  kept : Kept fs₀ fs

section

variable (fresh : r.IsFresh fs₀) (opened : r.openIndex fs₀ = .ok place base)
  (suits : Suits base used)

include fresh opened suits

theorem Mirrors.holdsConfigs (h : Mirrors base place used fs index m) :
    HoldsConfigs r fs₀ fs index := by
  have begins := begins_of_openIndex fresh opened
  refine ⟨h.readIndex_eq begins suits, ?_, ?_, ?_⟩
  · intro name record listed
    obtain ⟨t, found⟩ := h.exists_template listed
    have config := h.configs name _ t found
    have reaches := h.reaches_config suits found
    obtain ⟨mode, there⟩ := config.file
    obtain ⟨o, mem, origin⟩ := config.origin
    refine ⟨_, _, mode, reaches.located, ?_, there⟩
    have free := (suits.settled _ mem).free
    rw [← show record.untimed.configFile = o.configFile name from congrArg _ origin] at free
    cases before : fs₀.get? (namedPlace record.untimed.configFile) with
    | none => rfl
    | some x => simp [begins.kept _ x before] at free
  · intro q x free there file
    by_cases index' : q = place
    · exact .inl (index' ▸ (h.reaches_index begins suits).locate_node)
    by_cases config : ∃ name record t, m.templates.get? name = some (record, t)
        ∧ q = namedPlace record.configFile
    · obtain ⟨name, known, t, found, rfl⟩ := config
      have same := h.get?_map name
      rw [found] at same
      obtain ⟨record, listed, rfl⟩ := Option.map_eq_some_iff.1 same
      exact .inr ⟨name, record, listed, (h.reaches_config suits found).located⟩
    · rcases h.rest q index' fun name known t found same => config ⟨name, known, t, found, same⟩
        with same | ⟨_, dir, _⟩
      · rcases begins.new q x free (same.symm.trans there) with dir | this
        · simp [dir] at file
        · exact absurd this index'
      · simp [isDirectoryAt, there, file] at dir
  · intro q x there
    refine h.kept suits (begins.kept q x there) ?_
    rintro rfl
    simp [begins.unused] at there

theorem Tracks.exists_holdsConfigs (h : Tracks fs₀ base place used fs m) :
    ∃ index, HoldsConfigs r fs₀ fs index := by
  cases h with
  | fresh =>
    have sound : r.Sound fs₀ .empty := .fresh fresh
    refine ⟨.empty, (sound.openIndex_ok opened).1, ?_, ?_, fun _ _ there => there⟩
    · intro name record listed
      simp at listed
    · intro q x free there
      simp [free] at there
  | mirrored h => exact ⟨_, h.holdsConfigs fresh opened suits⟩

/-! ## Histories -/

/-- Through a whole history both registries give the same answers but for the times. -/
theorem Tracks.answers_eq (timed : ∀ c ∈ calls, c.IsTimed) (wf : ∀ c ∈ calls, c.IsWellFormed)
    (uses : ∀ c ∈ calls, ∀ u ∈ c.store?, u ∈ used) {w : Workspace FiledRegistry}
    {v : Workspace MemoryRegistry} (same : w.registry = r)
    (h : Tracks fs₀ base place used w.files v.registry) :
    (answers calls w).map (Except.map Answer.untimed) = answers calls v
      ∧ Tracks fs₀ base place used (afterCalls calls w).files (afterCalls calls v).registry := by
  induction calls generalizing w v with
  | nil => exact ⟨rfl, h⟩
  | cons c more ih =>
    obtain ⟨index, fs₁, opening⟩ := h.exists_opening fresh opened suits
    obtain ⟨answer, tracks⟩ := opening.agrees fresh opened suits h (timed c List.mem_cons_self)
      (wf c List.mem_cons_self) (uses c List.mem_cons_self)
    obtain ⟨files, registry⟩ := c.after_make w
    obtain ⟨onMemory, kept⟩ := MemoryRegistry.make_onMemory c v
    rw [← same, ← files, ← kept] at tracks
    obtain ⟨others, ends⟩ := ih (fun c mem => timed c (List.mem_cons_of_mem _ mem))
      (fun c mem => wf c (List.mem_cons_of_mem _ mem))
      (fun c mem => uses c (List.mem_cons_of_mem _ mem)) (registry.trans same) tracks
    refine ⟨?_, ends⟩
    rw [answers, answers, List.map_cons, others, c.answer_make w, onMemory, same, answer]

end

/-- The templates that the calls store. -/
def stores (calls : List Call) : List (Origin × TemplateName) := calls.filterMap Call.store?

/-- A fresh registry in files answers every call of a history as one in memory does, but for
the times. After each call the config files that are there are those of the records. -/
theorem answers_eq_onMemory {w : Workspace FiledRegistry} {v : Workspace MemoryRegistry}
    (fresh : w.registry.IsFresh w.files) (empty : v.registry = .empty)
    (opened : w.registry.openIndex w.files = .ok place base) (suits : Suits base (stores calls))
    (timed : ∀ c ∈ calls, c.IsTimed) (wf : ∀ c ∈ calls, c.IsWellFormed) :
    (answers calls w).map (Except.map Answer.untimed) = answers calls v
      ∧ ∀ front, front <+: calls →
        ∃ index, HoldsConfigs w.registry w.files (afterCalls front w).files index := by
  have uses : ∀ c ∈ calls, ∀ u ∈ c.store?, u ∈ stores calls :=
    fun c mem u store => List.mem_filterMap.2 ⟨c, mem, store⟩
  have start : Tracks w.files base place (stores calls) w.files v.registry := empty ▸ .fresh
  constructor
  · exact (start.answers_eq fresh opened suits timed wf uses rfl).1
  · intro front part
    have mem {c : Call} (h : c ∈ front) : c ∈ calls := part.subset h
    have ends := (start.answers_eq fresh opened suits (fun c h => timed c (mem h))
      (fun c h => wf c (mem h)) (fun c h => uses c (mem h)) rfl).2
    exact ends.exists_holdsConfigs fresh opened suits

/-- A template is stored, moved to another directory and deleted, and asked for in between. -/
def demoHistory : List Call :=
  [.put .epoch demoName ⟨[], "/t".toList, []⟩ demoTemplate, .contains demoName,
    .put .epoch demoName ⟨[], "/t".toList, []⟩ demoTemplate,
    .replace .epoch demoName ⟨[], "/u/v".toList, []⟩ demoTemplate, .get demoName, .list,
    .delete demoName, .get demoName]

theorem answers_eq_onMemory_demo :
    ∃ index, (answers demoHistory ⟨homeRegistry, .empty, .epoch, .empty⟩).map
        (Except.map Answer.untimed)
        = answers demoHistory ⟨MemoryRegistry.empty, .empty, .epoch, .empty⟩
      ∧ HoldsConfigs homeRegistry .empty
        (afterCalls demoHistory ⟨homeRegistry, .empty, .epoch, .empty⟩).files index := by
  obtain ⟨place, base, opened, suits⟩ : ∃ place base, homeRegistry.openIndex .empty = .ok place base
      ∧ Suits base (stores demoHistory) := by
    decide +kernel
  have timed : ∀ c ∈ demoHistory, c.IsTimed := by simp [demoHistory, Call.IsTimed, Instant.isProper_epoch]
  have wf : ∀ c ∈ demoHistory, c.IsWellFormed := by
    have demo : demoTemplate.WellFormed := by decide
    simp [demoHistory, Call.IsWellFormed, demo]
  obtain ⟨same, holds⟩ := answers_eq_onMemory (w := ⟨homeRegistry, .empty, .epoch, .empty⟩)
    (v := ⟨.empty, .empty, .epoch, .empty⟩) isFresh_empty rfl opened suits timed wf
  obtain ⟨index, holds⟩ := holds demoHistory List.prefix_rfl
  exact ⟨index, same, holds⟩

end FiledRegistry

end Scaffold
