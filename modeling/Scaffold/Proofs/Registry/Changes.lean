import Scaffold.Proofs.Registry.Storing

/-!
# What the operations of a registry change

The operations that only ask change nothing. A store that succeeds has prepared the index
and the directory of the config file and has then gone through a stage. A change that fails
has made directories at most. Whatever else an operation does, it leaves a registry that is in
order so.
-/

namespace Scaffold

open FileSystem FileAction

namespace FiledRegistry

variable {r : FiledRegistry} {fs fs' fs₁ fs₂ : FileSystem} {place config : Place} {path : Path}
  {index : Index} {name : TemplateName} {record : Record} {t : Template} {now : Instant}
  {origin : Origin} {stale : List Place} {content : Text} {stored : StoredTemplate} {e : Error}

/-! ## Operations that ask -/

theorem readText_state (path : Path) (fs : FileSystem) :
    (∃ content, readText path fs = .ok content fs) ∨ ∃ why, readText path fs = .error why fs := by
  cases read : readText path fs with
  | ok content fs' => exact .inl ⟨content, by rw [query_state.1 content read]⟩
  | error why fs' => exact .inr ⟨why, by rw [query_state.2 why read]⟩

theorem asks_readIndex (r : FiledRegistry) : Action.Asks r.readIndex := by
  intro fs
  rcases readText_state r.indexPath fs with ⟨content, read⟩ | ⟨why, read⟩
  · have run : r.readIndex fs = Action.ofExcept (Index.parse content) fs := by
      simp only [readIndex, read]
    rw [Action.after, run]
    exact Action.asks_ofExcept _ fs
  · by_cases missing : why = .notFound
    · subst missing
      exact Action.after_of_ok (a := SortedMap.empty) (by simp only [readIndex, read])
    · exact Action.after_of_error (e := .io why) (by simp only [readIndex, read])

theorem asks_readConfig (name : TemplateName) (record : Record) :
    Action.Asks (readConfig name record) := by
  intro fs
  rcases readText_state record.configFile fs with ⟨content, read⟩ | ⟨why, read⟩
  · have run : readConfig name record fs = Action.ofExcept (Template.parse content) fs := by
      simp only [readConfig, read]
    rw [Action.after, run]
    exact Action.asks_ofExcept _ fs
  · by_cases missing : why = .notFound
    · subst missing
      exact Action.after_of_error (e := .configMissing record.configFile name.text)
        (by simp only [readConfig, read])
    · exact Action.after_of_error (e := .io why) (by simp only [readConfig, read])

theorem asks_get (r : FiledRegistry) (name : TemplateName) : Action.Asks (r.get name) := by
  refine r.asks_readIndex.bind fun index => ?_
  cases index.get? name with
  | none => exact Action.asks_throw _
  | some record => exact (asks_readConfig name record).bind fun t => Action.asks_pure _

theorem asks_contains (r : FiledRegistry) (name : TemplateName) : Action.Asks (r.contains name) :=
  r.asks_readIndex.bind fun _ => Action.asks_pure _

theorem asks_list (r : FiledRegistry) : Action.Asks r.list :=
  r.asks_readIndex.bind fun _ => Action.asks_pure _

/-! ## Config files -/

/-- A config file that is written stands at the end of its path once the directory is made. -/
theorem writeConfig_ok (h : writeConfig record t fs = .ok config fs') :
    ∃ fs₁, createDirectories record.location fs = .ok () fs₁
      ∧ locate fs₁ .entry record.configFile = .ok config
      ∧ fs₁.isDirectoryAt config = false
      ∧ IsPut fs₁ config (.file (.text t.render) configFileMode) fs' := by
  unfold writeConfig at h
  obtain ⟨_, fs₁, made, h⟩ := bind_ok_iff.1 h
  obtain ⟨_, _, asked, h⟩ := bind_ok_iff.1 h
  obtain ⟨rfl, rfl⟩ := get_ok_iff.1 asked
  split at h
  · obtain ⟨_, _, staged, moved⟩ := bind_ok_iff.1 h
    obtain rfl := query_state.1 _ (run_ok_iff.1 staged)
    exact ⟨_, run_ok_iff.1 made, replaceFile_ok (run_ok_iff.1 moved)⟩
  · exact absurd h throw_ne_ok

/-- One that is not written has left nothing but directories behind. -/
theorem writeConfig_refused (h : writeConfig record t fs = .error e fs') :
    fs' = FileAction.after (createDirectories record.location) fs := by
  unfold writeConfig at h
  rcases bind_error_iff.1 h with refused | ⟨_, fs₁, made, h⟩
  · obtain ⟨why, _, refused⟩ := run_error refused
    exact (after_error refused).symm
  rw [after_ok (run_ok_iff.1 made)]
  rcases bind_error_iff.1 h with refused | ⟨_, _, asked, h⟩
  · exact absurd refused get_ne_error
  obtain ⟨rfl, rfl⟩ := get_ok_iff.1 asked
  split at h
  · rcases bind_error_iff.1 h with refused | ⟨_, _, staged, unmoved⟩
    · obtain ⟨why, _, refused⟩ := run_error refused
      exact query_state.2 why refused
    · obtain rfl := query_state.1 _ (run_ok_iff.1 staged)
      obtain ⟨why, _, refused⟩ := run_error unmoved
      exact replaceFile_error refused
  · exact (throw_error_iff.1 h).2.symm

theorem writeConfig_error (h : writeConfig record t fs = .error e fs') : Grown fs fs' :=
  writeConfig_refused h ▸ grown_createDirectories _ fs

/-- An old config file is removed or, if that is refused, left where it is. -/
theorem removeStale_ok (h : removeStale path fs = .ok stale fs') :
    (∃ q, removeFile path fs = .ok q fs' ∧ stale = [q])
      ∨ (∃ why, removeFile path fs = .error why fs) ∧ stale = [] ∧ fs' = fs := by
  unfold removeStale at h
  split at h
  · rename_i q fs₁ removed
    simp only [EStateM.Result.ok.injEq] at h
    obtain ⟨rfl, rfl⟩ := h
    exact .inl ⟨q, removed, rfl⟩
  · rename_i why fs₁ refused
    simp only [EStateM.Result.ok.injEq] at h
    obtain ⟨rfl, rfl⟩ := h
    obtain rfl := removeFile_error refused
    exact .inr ⟨⟨why, refused⟩, rfl, rfl⟩

theorem removeStale_ne_error : removeStale path fs ≠ .error e fs' := by
  unfold removeStale
  split <;> simp

/-! ## Stages -/

/-- Open the index and make the directory of a config file. -/
def prepare (r : FiledRegistry) (location : Path) : FileAction Place := do
  let place ← r.openIndex
  createDirectories location
  return place

theorem Sound.prepare_ok (h : r.Sound fs index) (ok : r.prepare path fs = .ok place fs') :
    r.readIndex fs = .ok index fs ∧ r.Indexed fs' place index
      ∧ (index = .empty ∨ Grown fs fs') := by
  obtain ⟨_, fs₁, opened, ok⟩ := bind_ok_iff.1 ok
  obtain ⟨_, fs₂, made, ok⟩ := bind_ok_iff.1 ok
  obtain ⟨rfl, rfl⟩ := pure_ok_iff.1 ok
  obtain ⟨read, order, more⟩ := h.openIndex_ok opened
  have grown : Grown fs₁ fs₂ := after_ok made ▸ grown_createDirectories _ fs₁
  exact ⟨read, order.grown grown, more.imp_right fun before => before.trans grown⟩

/-- What was put, removed and written is a stage. -/
theorem Indexed.stage (order : r.Indexed fs place index) (timed : record.IsTimed)
    (isOf : record.IsOf name) (located : locate fs .entry record.configFile = .ok config)
    (noDir : fs.isDirectoryAt config = false)
    (put : IsPut fs config (.file (.text t.render) configFileMode) fs₁)
    (gone : Removed stale fs₁ fs₂)
    (stale_located : ∀ q ∈ stale, ∃ old, index.get? name = some old
      ∧ locate fs .entry old.configFile = .ok q)
    (mem_stale : config ∈ stale ↔ ∃ old, index.get? name = some old
      ∧ Path.same old.configFile record.configFile = false
      ∧ locate fs .entry old.configFile = .ok config)
    (writes : Writes place (config :: stale) (index.insert name record) fs₂ fs') :
    Stage r index name record t place config stale fs fs' := by
  have notStale : place ∉ stale := by
    intro mem
    obtain ⟨old, found, located⟩ := stale_located place mem
    exact order.config_ne found located rfl
  have written (kept : config ∉ stale) : fs₂.get? config
      = some (.file (.text t.render) configFileMode) :=
    (gone.frame config kept).trans put.self
  have frame {q : Place} (other : q ≠ config) (kept : q ∉ stale) : fs₂.get? q = fs.get? q :=
    (gone.frame q kept).trans (put.other other)
  rcases writes with ⟨met, rfl⟩ | ⟨unmet, write⟩
  · have met : place = config := by simpa [notStale] using met
    subst met
    refine ⟨order, timed, isOf, located, ?_, fun q away => ?_, fun kept => ⟨_, written kept⟩,
      gone.free place, fun apart => absurd rfl apart, stale_located, mem_stale⟩
    · exact ((put.spares noDir).trans gone.spares).mono (by simp)
    · simp only [List.mem_cons, not_or] at away
      exact frame away.1 away.2.2
  · obtain ⟨apart, _⟩ : place ≠ config ∧ place ∉ stale := by simpa using unmet
    obtain ⟨content, mode, found, _⟩ := order.stored
    have found₂ := (frame apart notStale).trans found
    have rewritten := writePlace_ok found₂ write
    have noDir₂ : fs₂.isDirectoryAt place = false := by
      simp [isDirectoryAt, found₂, Node.isDirectory]
    refine ⟨order, timed, isOf, located, ?_, fun q away => ?_, fun kept => ⟨configFileMode, ?_⟩,
      fun mem => ?_, fun _ => ⟨_, rewritten.self⟩, stale_located, mem_stale⟩
    · exact (((put.spares noDir).trans gone.spares).trans (rewritten.spares noDir₂)).mono (by simp)
    · simp only [List.mem_cons, not_or] at away
      exact (rewritten.other away.2.1).trans (frame away.1 away.2.2)
    · exact (rewritten.other apart.symm).trans (written kept)
    · exact (rewritten.other apart.symm).trans (gone.free config mem)

/-! ## Stores -/

theorem prepare_of_ok (opened : r.openIndex fs = .ok place fs₁)
    (made : createDirectories path fs₁ = .ok () fs₂) : r.prepare path fs = .ok place fs₂ :=
  bind_ok_iff.2 ⟨place, fs₁, opened, bind_ok_iff.2 ⟨(), fs₂, made, rfl⟩⟩

/-- What a put that succeeds has done: the name was free, and between the opening of the index
and its writing the config file was written. -/
theorem put_inv (h : r.put now name origin t fs = .ok record fs') :
    record = origin.record name (some now) ∧ ∃ place index config fs₁ fs₂,
      r.Opens fs place index fs₁ ∧ index.get? name = none
      ∧ writeConfig record t fs₁ = .ok config fs₂
      ∧ Writes place [config] (index.insert name record) fs₂ fs' := by
  obtain ⟨place, index, fs₁, fs₂, index', detached, opens, changed, writes⟩ := updateIndex_inv h
  dsimp only at changed
  split at changed
  · exact absurd changed throw_ne_ok
  rename_i new
  have free : index.get? name = none := by simpa [SortedMap.contains] using new
  obtain ⟨config, _, written, changed⟩ := bind_ok_iff.1 changed
  obtain ⟨same, rfl⟩ := pure_ok_iff.1 changed
  simp only [Prod.mk.injEq] at same
  obtain ⟨rfl, rfl, rfl⟩ := same
  exact ⟨rfl, place, index, config, fs₁, _, opens, free, written, writes⟩

/-- What a replacement that succeeds has done: the name was taken, and when the config file was
written the old one was removed, unless the record names the same path. -/
theorem replace_inv (h : r.replace now name origin t fs = .ok record fs') :
    record = origin.record name (some now) ∧ ∃ place index old config stale fs₁ fs₂ fs₃,
      r.Opens fs place index fs₁ ∧ index.get? name = some old
      ∧ writeConfig record t fs₁ = .ok config fs₂
      ∧ (if Path.same old.configFile record.configFile then pure []
        else removeStale old.configFile) fs₂ = .ok stale fs₃
      ∧ Writes place (config :: stale) (index.insert name record) fs₃ fs' := by
  obtain ⟨place, index, fs₁, fs₃, index', detached, opens, changed, writes⟩ := updateIndex_inv h
  dsimp only at changed
  cases found : index.get? name with
  | none =>
    rw [found] at changed
    exact absurd changed throw_ne_ok
  | some old =>
  rw [found] at changed
  obtain ⟨config, fs₂, written, changed⟩ := bind_ok_iff.1 changed
  -- what follows is the same in both cases but stands in each of them
  have removed : ∃ stale, (record, index', detached) = (origin.record name (some now),
        index.insert name (origin.record name (some now)), config :: stale)
      ∧ (if Path.same old.configFile (origin.record name (some now)).configFile then pure []
        else removeStale old.configFile) fs₂ = .ok stale fs₃ := by
    split at changed
    all_goals
      rename_i same
      obtain ⟨stale, fs₄, removed, changed⟩ := bind_ok_iff.1 changed
      obtain ⟨parts, rfl⟩ := pure_ok_iff.1 changed
      exact ⟨stale, parts.symm, by simpa [same] using removed⟩
  obtain ⟨stale, parts, removed⟩ := removed
  simp only [Prod.mk.injEq] at parts
  obtain ⟨rfl, rfl, rfl⟩ := parts
  exact ⟨rfl, place, index, old, config, stale, fs₁, fs₂, fs₃, opens, found, written, removed, writes⟩

/-- What a deletion that succeeds has done: the name was taken, and its config file was taken
away. -/
theorem delete_inv (h : r.delete name fs = .ok stored fs') :
    ∃ place index record t gone fs₁ fs₂, stored = ⟨name, record, t⟩
      ∧ r.Opens fs place index fs₁ ∧ index.get? name = some record
      ∧ takeConfig record fs₁ = .ok (t, gone) fs₂
      ∧ Writes place gone (index.erase name) fs₂ fs' := by
  obtain ⟨place, index, fs₁, fs₂, index', detached, opens, changed, writes⟩ := updateIndex_inv h
  dsimp only at changed
  cases found : index.get? name with
  | none =>
    rw [found] at changed
    exact absurd changed throw_ne_ok
  | some record =>
    rw [found] at changed
    obtain ⟨⟨t, gone⟩, _, taken, changed⟩ := bind_ok_iff.1 changed
    obtain ⟨same, rfl⟩ := pure_ok_iff.1 changed
    simp only [Prod.mk.injEq] at same
    obtain ⟨rfl, rfl, rfl⟩ := same
    exact ⟨place, index, record, t, gone, fs₁, _, rfl, opens, found, taken, writes⟩

/-- A template that is put has a name that was free. -/
theorem put_ok (sound : r.Sound fs index) (proper : now.IsProper)
    (h : r.put now name origin t fs = .ok record fs') :
    index.get? name = none ∧ record = origin.record name (some now)
      ∧ ∃ place config fs₁, r.prepare origin.location fs = .ok place fs₁
        ∧ Stage r index name record t place config [] fs₁ fs' := by
  obtain ⟨rfl, place, _, config, fs₁, fs₂, opens, free, written, writes⟩ := put_inv h
  obtain ⟨-, rfl, -⟩ := (sound.opens opens.opened).unique opens
  obtain ⟨fs₃, made, located, noDir, put⟩ := writeConfig_ok written
  have ready := prepare_of_ok opens.opened made
  refine ⟨free, rfl, place, config, fs₃, ready, ?_⟩
  exact (sound.prepare_ok ready).2.1.stage (origin.isTimed_record name proper) (origin.isOf_record name _)
    located noDir put (removed_nil fs₂) (by simp) (by simp [free]) writes

/-- The path of a config file leads where it led after another one is written, unless it
leads over a link in whose place that one is put. -/
private theorem reaches_of_put {old : Record} (reaches : Reaches fs .entry old.configFile q)
    (isOf : old.IsOf name) (noDir : fs.isDirectoryAt config = false)
    (put : IsPut fs config (.file (.text content) configFileMode) fs₁)
    (unmet : config ∉ linksOn fs .entry old.configFile) : Reaches fs₁ .entry old.configFile q := by
  refine (put.spares noDir).reaches reaches.located (fun link mem lost => ?_) ?_
  · obtain rfl := List.mem_singleton.1 lost
    exact unmet mem
  · by_cases here : q = config
    · subst here
      exact .file put.self (.inr (.inr ⟨rfl, isOf.getLast?_ne⟩))
    · exact .of_eq (put.other here) reaches.notLink

/-- What a replacement does with the old config file: it is removed, also if it is the new
one, but not if its path leads over a link that the new one has replaced. -/
private theorem removal {old : Record} (order : r.Indexed fs place index)
    (found : index.get? name = some old) (noDir : fs.isDirectoryAt config = false)
    (put : IsPut fs config (.file (.text content) configFileMode) fs₁)
    (h : (if Path.same old.configFile path then pure [] else removeStale old.configFile) fs₁
      = .ok stale fs₂) :
    Removed stale fs₁ fs₂
      ∧ (∀ q ∈ stale, ∃ old, index.get? name = some old
        ∧ locate fs .entry old.configFile = .ok q)
      ∧ (config ∈ stale ↔ ∃ old, index.get? name = some old
        ∧ Path.same old.configFile path = false
        ∧ locate fs .entry old.configFile = .ok config) := by
  by_cases same : Path.same old.configFile path = true
  · rw [if_pos same] at h
    obtain ⟨rfl, rfl⟩ := pure_ok_iff.1 h
    exact ⟨removed_nil fs₁, by simp, by simp [found, same]⟩
  rw [if_neg same] at h
  obtain ⟨q, reaches, _⟩ := order.configs name old found
  have isOf := order.isOf name old found
  have spares := put.spares noDir
  have kept := reaches_of_put reaches isOf noDir put
  rcases removeStale_ok h with ⟨q', removed, rfl⟩ | ⟨⟨why, refused⟩, rfl, rfl⟩
  · obtain ⟨located, noDir', rfl⟩ := removeFile_ok removed
    rw [isOf.locateEntry_eq] at located
    have unmet : config ∉ linksOn fs .entry old.configFile := by
      intro met
      have lost := spares.broken reaches.located met
        (fun p mem other => absurd (List.mem_singleton.1 mem) other) ⟨_, put.self⟩ (.inl rfl)
      simp [located] at lost
    obtain rfl := Except.ok.inj ((kept unmet).located.symm.trans located)
    refine ⟨removed_remove noDir', fun p mem => ?_, fun mem => ?_, ?_⟩
    · obtain rfl := List.mem_singleton.1 mem
      exact ⟨old, found, reaches.located⟩
    · obtain rfl := List.mem_singleton.1 mem
      exact ⟨old, found, by simpa using same, reaches.located⟩
    · rintro ⟨_, found', _, located'⟩
      obtain rfl := Option.some.inj (found.symm.trans found')
      exact List.mem_singleton.2 (Except.ok.inj (located'.symm.trans reaches.located))
  · refine ⟨removed_nil _, by simp, by simp, ?_⟩
    rintro ⟨_, found', _, located'⟩
    obtain rfl := Option.some.inj (found.symm.trans found')
    obtain rfl := Except.ok.inj (reaches.located.symm.trans located')
    have here := kept (not_mem_linksOn reaches.located reaches.notLink)
    simp [removeFile_of_file here.located put.self] at refused

/-- A template that is replaced has a name that was taken. -/
theorem replace_ok (sound : r.Sound fs index) (proper : now.IsProper)
    (h : r.replace now name origin t fs = .ok record fs') :
    ∃ old, index.get? name = some old ∧ record = origin.record name (some now)
      ∧ ∃ place config stale fs₁, r.prepare origin.location fs = .ok place fs₁
        ∧ Stage r index name record t place config stale fs₁ fs' := by
  obtain ⟨rfl, place, _, old, config, stale, fs₁, fs₂, fs₃, opens, found, written, removed, writes⟩ :=
    replace_inv h
  obtain ⟨-, rfl, -⟩ := (sound.opens opens.opened).unique opens
  obtain ⟨fs₄, made, located, noDir, put⟩ := writeConfig_ok written
  have ready := prepare_of_ok opens.opened made
  have order := (sound.prepare_ok ready).2.1
  obtain ⟨gone, stale_located, mem_stale⟩ := removal order found noDir put removed
  refine ⟨old, found, rfl, place, config, stale, fs₄, ready, ?_⟩
  exact order.stage (origin.isTimed_record name proper) (origin.isOf_record name _) located noDir put
    gone stale_located mem_stale writes

/-! ## Deletions -/

theorem takeConfig_cases (record : Record) (fs : FileSystem) :
    (∃ e, takeConfig record fs = .error e fs)
      ∨ ∃ t gone fs', takeConfig record fs = .ok (t, gone) fs'
        ∧ (gone = [] ∧ fs' = fs ∨ ∃ q, gone = [q] ∧ removeFile record.configFile fs = .ok q fs') := by
  rcases readText_state record.configFile fs with ⟨content, read⟩ | ⟨why, read⟩
  · cases removed : removeFile record.configFile fs with
    | ok q fs' =>
      exact .inr ⟨(Template.parse content).toOption.getD Template.empty, [q], fs',
        by simp only [takeConfig, read, removed], .inr ⟨q, rfl, rfl⟩⟩
    | error why fs' =>
      obtain rfl := removeFile_error removed
      exact .inl ⟨.io why, by simp only [takeConfig, read, removed]⟩
  · by_cases missing : why = .notFound
    · subst missing
      exact .inr ⟨.empty, [], fs, by simp only [takeConfig, read], .inl ⟨rfl, rfl⟩⟩
    · exact .inl ⟨.io why, by simp only [takeConfig, read]⟩

theorem takeConfig_error (h : takeConfig record fs = .error e fs') : fs' = fs := by
  rcases takeConfig_cases record fs with ⟨_, refused⟩ | ⟨_, _, _, taken, _⟩
  · simp only [refused, EStateM.Result.error.injEq] at h
    exact h.2.symm
  · simp [taken] at h

/-- A config file is taken away if one stands there. -/
private theorem takeConfig_ok {gone : List Place} (isOf : record.IsOf name)
    (reaches : Reaches fs .entry record.configFile config)
    (h : takeConfig record fs = .ok (t, gone) fs') :
    Removed gone fs fs' ∧ ∀ q ∈ gone, q = config := by
  rcases takeConfig_cases record fs with ⟨_, refused⟩ | ⟨t', gone', fs₁, taken, which⟩
  · simp [refused] at h
  simp only [taken, EStateM.Result.ok.injEq, Prod.mk.injEq] at h
  obtain ⟨⟨_, rfl⟩, rfl⟩ := h
  rcases which with ⟨rfl, rfl⟩ | ⟨q, rfl, removed⟩
  · exact ⟨removed_nil _, by simp⟩
  · obtain ⟨located, noDir, rfl⟩ := removeFile_ok removed
    rw [isOf.locateEntry_eq, reaches.located] at located
    obtain rfl := Except.ok.inj located
    exact ⟨removed_remove noDir, by simp⟩

/-- When it is gone and the index is written, the registry is in order without it. -/
private theorem Indexed.erased {gone : List Place} (order : r.Indexed fs place index)
    (found : index.get? name = some record)
    (reaches : Reaches fs .entry record.configFile config) (removed : Removed gone fs fs₁)
    (only : ∀ q ∈ gone, q = config)
    (write : writePlace place (.text (Index.render (index.erase name))) fs₁ = .ok () fs') :
    r.Indexed fs' place (index.erase name) := by
  obtain ⟨content, mode, there, _⟩ := order.stored
  have apart := order.config_ne found reaches.located
  have kept := (removed.frame place fun mem => apart (only place mem).symm).trans there
  have put := writePlace_ok kept write
  have spares := removed.spares.trans (put.spares (by simp [isDirectoryAt, kept, Node.isDirectory]))
  have route {goal : Goal} {path : Path} {q : Place} (located : locate fs goal path = .ok q) :
      ∀ link ∈ linksOn fs goal path, link ∉ gone ++ [place] := by
    intro link mem lost
    rcases List.mem_append.1 lost with lost | lost
    · obtain rfl := only link lost
      exact not_mem_linksOn located reaches.notLink mem
    · obtain rfl := List.mem_singleton.1 lost
      exact not_mem_linksOn located order.reaches.notLink mem
  have timed : Index.IsTimed (index.erase name) := order.timed.erase name
  have remains {m : TemplateName} {other : Record} (found : (index.erase name).get? m = some other) :
      m ≠ name ∧ index.get? m = some other := by
    rw [SortedMap.get?_erase] at found
    split at found
    · simp at found
    · rename_i differ
      exact ⟨fun same => differ (congrArg TextKey.text same), found⟩
  refine ⟨?_, ⟨_, mode, put.self, Index.parse_render timed⟩, timed, fun m other found' => ?_,
    fun m other found' => ?_⟩
  · exact spares.reaches order.reaches.located (route order.reaches.located)
      (.file put.self (.inl (by simp [there])))
  · exact order.isOf m other (remains found').2
  · obtain ⟨differ, found'⟩ := remains found'
    obtain ⟨q, reaches', apart'⟩ := order.configs m other found'
    have away := (order.isOf name record found).place_ne (order.isOf m other found') differ
      reaches.located reaches'.located
    have same : fs'.get? q = fs.get? q :=
      (put.other apart').trans (removed.frame q fun mem => away (only q mem))
    exact ⟨q, spares.reaches reaches'.located (route reaches'.located)
      (.of_eq same reaches'.notLink), apart'⟩

/-- A template that is deleted takes its config file and its record along. -/
theorem delete_ok (sound : r.Sound fs index) (h : r.delete name fs = .ok stored fs') :
    ∃ place, r.Indexed fs' place (index.erase name) := by
  obtain ⟨place, _, record, t, gone, fs₁, fs₂, -, opens, found, taken, writes⟩ := delete_inv h
  obtain ⟨-, rfl, -⟩ := (sound.opens opens.opened).unique opens
  have order := (sound.openIndex_ok opens.opened).2.1
  obtain ⟨config, reaches, apart⟩ := order.configs name record found
  obtain ⟨removed, only⟩ := takeConfig_ok (order.isOf name record found) reaches taken
  rcases writes with ⟨met, _⟩ | ⟨_, write⟩
  · exact absurd (only place met).symm apart
  · exact ⟨place, order.erased found reaches removed only write⟩

/-! ## Changes that fail -/

/-- A change has failed because the index could not be opened, or later, when directories had
been made at most. -/
inductive Abandoned (r : FiledRegistry) (fs fs' : FileSystem) : Prop
  | unopened {why : IoError} (refused : r.openIndex fs = .error why fs')
  | opened {place : Place} {base : FileSystem} (ok : r.openIndex fs = .ok place base)
      (grown : Grown base fs')

/-- Reading and writing the index loses nothing, so a change of it fails as the change that is
made to it in between. -/
theorem updateIndex_abandoned {α : Type} {change : Index → Action (α × Index × List Place)}
    (h : r.updateIndex change fs = .error e fs')
    (grows : ∀ index fs₁ e fs₂, change index fs₁ = .error e fs₂ → Grown fs₁ fs₂) :
    Abandoned r fs fs' := by
  rcases updateIndex_error_inv h with ⟨why, refused⟩ | ⟨place, fs₁, opened, rest⟩
  · exact .unopened refused
  refine .opened opened ?_
  rcases rest with rfl | ⟨index, _, refused⟩
  · exact .refl _
  · exact grows index fs₁ e fs' refused

theorem put_abandoned (h : r.put now name origin t fs = .error e fs') : Abandoned r fs fs' := by
  refine updateIndex_abandoned h fun index fs₁ e fs₂ refused => ?_
  split at refused
  · obtain ⟨_, rfl⟩ := throw_error_iff.1 refused
    exact .refl _
  · obtain refused | ⟨_, _, _, refused⟩ := bind_error_iff.1 refused
    · exact writeConfig_error refused
    · simp [pure, EStateM.pure] at refused

theorem replace_abandoned (h : r.replace now name origin t fs = .error e fs') :
    Abandoned r fs fs' := by
  refine updateIndex_abandoned h fun index fs₁ e fs₂ refused => ?_
  cases found : index.get? name with
  | none =>
    rw [found] at refused
    obtain ⟨_, rfl⟩ := throw_error_iff.1 refused
    exact .refl _
  | some old =>
    rw [found] at refused
    obtain refused | ⟨_, _, _, refused⟩ := bind_error_iff.1 refused
    · exact writeConfig_error refused
    · exfalso
      split at refused
      · simp [pure, EStateM.pure, bind, EStateM.bind] at refused
      · obtain refused | ⟨_, _, _, refused⟩ := bind_error_iff.1 refused
        · exact removeStale_ne_error refused
        · simp [pure, EStateM.pure] at refused

theorem delete_abandoned (h : r.delete name fs = .error e fs') : Abandoned r fs fs' := by
  refine updateIndex_abandoned h fun index fs₁ e fs₂ refused => ?_
  cases found : index.get? name with
  | none =>
    rw [found] at refused
    obtain ⟨_, rfl⟩ := throw_error_iff.1 refused
    exact .refl _
  | some record =>
    rw [found] at refused
    obtain refused | ⟨_, _, _, refused⟩ := bind_error_iff.1 refused
    · exact takeConfig_error refused ▸ .refl _
    · simp [pure, EStateM.pure] at refused

/-- A change that fails leaves a registry that is in order so. -/
theorem Abandoned.sound (h : Abandoned r fs fs') (sound : r.Sound fs index) : r.Sound fs' index := by
  cases h with
  | unopened refused => exact sound.openIndex_error refused
  | opened ok grown => exact (Sound.indexed (sound.openIndex_ok ok).2.1).grown grown

end FiledRegistry

end Scaffold
