import Scaffold.Command.Basic
import Scaffold.Proofs.Registry.History

/-!
# What a failure leaves behind

A change of a registry that fails has opened the index and may have made directories, and
that is all. So whatever could be read before can be read as it was, and every template that
was given out still is. What can become different is the answer for an index that was not
found: once the directories on the way to it are made, its path may lead to a file that was
there, behind a step up, or be refused for another reason. A path of names has no such turn.
-/

namespace Scaffold

open FileSystem FileAction

variable {fs fs' base : FileSystem} {place : Place} {path : Path} {x : Node} {content : Text}

namespace FileSystem

/-- What is read under a path. -/
def textAt (fs : FileSystem) (path : Path) : Except IoError Text :=
  match locate fs .node path with
  | .error why => .error why
  | .ok place => readNode (fs.get? place)

theorem readText_eq_textAt (path : Path) (fs : FileSystem) :
    readText path fs = query (textAt · path) fs := by
  cases located : locate fs .node path with
  | error why => simp only [readText_of_locate_error located, query, textAt, located]
  | ok place => simp only [readText_of_locate located, query, textAt, located]

/-- What is read is the text of a file. -/
theorem textAt_ok_iff : textAt fs path = .ok content ↔ ∃ place mode,
    locate fs .node path = .ok place ∧ fs.get? place = some (.file (.text content) mode) := by
  have readNode_ok (node : Option Node) :
      readNode node = .ok content ↔ ∃ mode, node = some (.file (.text content) mode) := by
    rcases node with _ | ⟨⟨⟩ | ⟨⟩, _⟩ | _ | _ <;> simp [readNode]
  unfold textAt
  cases locate fs .node path with
  | error why => simp
  | ok place => simp [readNode_ok]

/-- What stands at the end of a path is read in the same way as long as nothing is lost. -/
theorem Spares.textAt_eq (h : Spares [] fs fs') (located : locate fs .node path = .ok place)
    (found : fs.get? place = some x) : textAt fs' path = textAt fs path := by
  have notLink : ∀ target, fs.get? place ≠ some (.link target) :=
    (resolves_of_locate located).not_link_of_node (Text.split_ne_nil _ _)
  have before : textAt fs path = readNode (some x) := by simp only [textAt, located, found]
  rw [before]
  cases isDir : x.isDirectory with
  | false =>
    have kept := h.others place x (by simp) isDir found
    have reaches := h.reaches located (by simp) (.of_eq (kept.trans found.symm) notLink)
    simp only [textAt, reaches.located, kept]
  | true =>
    obtain ⟨mode, rfl⟩ := Node.isDirectory_iff.1 isDir
    have there := h.dirs place (isDirectoryAt_of_get? found)
    have reaches := h.reaches located (by simp) (.directory there)
    obtain ⟨mode', found'⟩ := get?_of_isDirectoryAt there
    simp only [textAt, reaches.located, found', readNode]

/-- What could be read can be read again. -/
theorem Spares.textAt_ok (h : Spares [] fs fs') (read : textAt fs path = .ok content) :
    textAt fs' path = .ok content := by
  rw [← read]
  cases located : locate fs .node path with
  | error why => simp [textAt, located] at read
  | ok place =>
    cases found : fs.get? place with
    | none => simp [textAt, located, found, readNode] at read
    | some x => exact h.textAt_eq located found

end FileSystem

namespace FiledRegistry

variable {r : FiledRegistry} {index : Index} {name : TemplateName} {stored : StoredTemplate}
  {e : Error} {α : Type} {change : Index → Action (α × Index × List Place)}

/-! ## Answers -/

/-- The index that is read from a text. -/
def indexOf : Except IoError Text → Except Error Index
  | .error .notFound => .ok .empty
  | .error why => .error (.io why)
  | .ok content => Index.parse content

/-- An index that has a name is not a missing one. -/
theorem exists_text_of_indexOf {read : Except IoError Text} {record : Record}
    (indexed : indexOf read = .ok index) (found : index.get? name = some record) :
    ∃ content, read = .ok content ∧ Index.parse content = .ok index := by
  cases read with
  | ok content => exact ⟨content, rfl, indexed⟩
  | error why =>
    cases why <;> simp only [indexOf, Except.ok.injEq, reduceCtorEq] at indexed
    subst indexed
    simp at found

theorem readIndex_answer (r : FiledRegistry) (fs : FileSystem) :
    r.readIndex.answer fs = indexOf (textAt fs r.indexPath) := by
  simp only [Action.answer, readIndex, readText_eq_textAt, query]
  cases textAt fs r.indexPath with
  | error why => cases why <;> rfl
  | ok content =>
    simp only [Action.ofExcept, indexOf]
    cases Index.parse content <;> rfl

theorem list_answer_eq (r : FiledRegistry) (fs : FileSystem) :
    r.list.answer fs = (r.readIndex.answer fs).map SortedMap.entries := by
  cases run : r.readIndex fs with
  | ok index fs' => rw [list, Action.answer_bind_of_ok run, Action.answer_of_ok run]; rfl
  | error e fs' => rw [list, Action.answer_bind_of_error run, Action.answer_of_error run]; rfl

theorem contains_answer_eq (r : FiledRegistry) (name : TemplateName) (fs : FileSystem) :
    (r.contains name).answer fs = (r.readIndex.answer fs).map (SortedMap.contains · name) := by
  cases run : r.readIndex fs with
  | ok index fs' => rw [contains, Action.answer_bind_of_ok run, Action.answer_of_ok run]; rfl
  | error e fs' => rw [contains, Action.answer_bind_of_error run, Action.answer_of_error run]; rfl

/-- The names and the list of the registry are answered as before. -/
structure SameAnswers (r : FiledRegistry) (fs fs' : FileSystem) : Prop where
  contains : ∀ name, (r.contains name).answer fs' = (r.contains name).answer fs
  list : r.list.answer fs' = r.list.answer fs

/-- Every answer about names is decided by the index, and the list tells the whole index. -/
theorem sameAnswers_iff :
    SameAnswers r fs fs' ↔ r.readIndex.answer fs' = r.readIndex.answer fs := by
  constructor
  · intro same
    have listed := same.list
    rw [list_answer_eq, list_answer_eq] at listed
    cases after : r.readIndex.answer fs' <;> cases before : r.readIndex.answer fs <;>
      simp only [after, before, Except.map, Except.error.injEq, Except.ok.injEq, reduceCtorEq]
        at listed ⊢
    · exact listed
    · exact SortedMap.eq_of_entries_eq listed
  · intro same
    constructor
    · intro name
      rw [contains_answer_eq, contains_answer_eq, same]
    · rw [list_answer_eq, list_answer_eq, same]

theorem readIndex_ok_iff {fs₁ : FileSystem} :
    r.readIndex fs = .ok index fs₁ ↔ indexOf (textAt fs r.indexPath) = .ok index ∧ fs = fs₁ := by
  have asks := r.asks_readIndex fs
  rw [← readIndex_answer]
  constructor
  · intro run
    rw [Action.after_of_ok run] at asks
    exact ⟨Action.answer_of_ok run, asks.symm⟩
  · rintro ⟨answer, rfl⟩
    exact r.asks_readIndex.run_of_answer answer

theorem readConfig_ok_iff {record : Record} {t : Template} {fs₁ : FileSystem} :
    readConfig name record fs = .ok t fs₁
      ↔ (∃ content, textAt fs record.configFile = .ok content ∧ Template.parse content = .ok t)
        ∧ fs = fs₁ := by
  simp only [readConfig, readText_eq_textAt, query]
  cases textAt fs record.configFile with
  | error why => cases why <;> simp
  | ok content => simp [Action.ofExcept_ok_iff]

/-- A template is given out if the index and its config file can be read. -/
theorem get_ok_iff {fs₁ : FileSystem} : r.get name fs = .ok stored fs₁
    ↔ (∃ index record content t, indexOf (textAt fs r.indexPath) = .ok index
      ∧ index.get? name = some record ∧ textAt fs record.configFile = .ok content
      ∧ Template.parse content = .ok t ∧ stored = ⟨name, record, t⟩) ∧ fs = fs₁ := by
  unfold get
  constructor
  · intro run
    obtain ⟨index, _, read, run⟩ := bind_ok_iff.1 run
    obtain ⟨indexed, rfl⟩ := readIndex_ok_iff.1 read
    cases found : index.get? name with
    | none =>
      rw [found] at run
      exact absurd run throw_ne_ok
    | some record =>
      rw [found] at run
      obtain ⟨t, _, config, run⟩ := bind_ok_iff.1 run
      obtain ⟨⟨content, there, parsed⟩, rfl⟩ := readConfig_ok_iff.1 config
      obtain ⟨rfl, rfl⟩ := pure_ok_iff.1 run
      exact ⟨⟨index, record, content, t, indexed, found, there, parsed, rfl⟩, rfl⟩
  · rintro ⟨⟨index, record, content, t, indexed, found, there, parsed, rfl⟩, rfl⟩
    rw [bind_of_ok (readIndex_ok_iff.2 ⟨indexed, rfl⟩)]
    simp only [found]
    exact bind_of_ok (readConfig_ok_iff.2 ⟨⟨content, there, parsed⟩, rfl⟩)

/-- A template that is given out is given out again as long as nothing is lost. -/
theorem get_ok_spared (h : Spares [] fs fs') (got : r.get name fs = .ok stored fs) :
    r.get name fs' = .ok stored fs' := by
  obtain ⟨⟨index, record, content, t, indexed, found, there, parsed, rfl⟩, _⟩ := get_ok_iff.1 got
  obtain ⟨written, read, _⟩ := exists_text_of_indexOf indexed found
  rw [read, ← h.textAt_ok read] at indexed
  exact get_ok_iff.2
    ⟨⟨index, record, content, t, indexed, found, h.textAt_ok there, parsed, rfl⟩, rfl⟩

/-! ## The index that is opened -/

/-- The index is opened where its path leads, and nothing is lost. -/
theorem openIndex_ok (ok : r.openIndex fs = .ok place base) :
    Spares [] fs base ∧ locate base .node r.indexPath = .ok place
      ∧ (∃ y, base.get? place = some y)
      ∧ ∃ fs₁, Grown fs fs₁ ∧ locate fs₁ .node r.indexPath = .ok place := by
  obtain ⟨_, fs₁, made, opened⟩ := bind_ok_iff.1 ok
  have grown : Grown fs fs₁ := after_ok made ▸ grown_createDirectories _ fs
  obtain ⟨located, state⟩ := openFile_ok opened
  have before := locate_node_of_file located
  obtain ⟨free, _, put⟩ | ⟨rfl, content, mode, found⟩ := state
  · have reaches := put.reaches_of_free located free
    exact ⟨grown.spares.trans (put.spares_of_free free), reaches.locate_node, ⟨_, put.self⟩,
      fs₁, grown, before⟩
  · exact ⟨grown.spares, before, ⟨_, found⟩, base, grown, before⟩

theorem openIndex_error {why : IoError} (refused : r.openIndex fs = .error why fs') :
    Grown fs fs' := by
  obtain refused | ⟨_, fs₁, made, refused⟩ := bind_error_iff.1 refused
  · exact after_error refused ▸ grown_createDirectories _ fs
  · rw [openFile_error refused]
    exact after_ok made ▸ grown_createDirectories _ fs

namespace Abandoned

theorem spares (h : Abandoned r fs fs') : Spares [] fs fs' := by
  cases h with
  | unopened refused => exact (openIndex_error refused).spares
  | opened ok grown => exact (openIndex_ok ok).1.trans grown.spares

/-- Unless it was not found, the index is read as before. -/
theorem textAt_eq (h : Abandoned r fs fs')
    (there : textAt fs r.indexPath ≠ .error .notFound) :
    textAt fs' r.indexPath = textAt fs r.indexPath := by
  cases located : locate fs .node r.indexPath with
  | ok place =>
    cases found : fs.get? place with
    | none =>
      apply absurd _ there
      simp only [textAt, located, found, readNode]
    | some x => exact h.spares.textAt_eq located found
  | error why =>
    have other : why ≠ .notFound := by
      rintro rfl
      exact there (by simp only [textAt, located])
    cases h with
    | unopened refused =>
      have still := locate_error_of_grown (openIndex_error refused) located other
      simp only [textAt, still, located]
    | opened ok _ =>
      obtain ⟨_, _, _, fs₁, grown, led⟩ := openIndex_ok ok
      simp [locate_error_of_grown grown located other] at led

/-- What is made after the index has been opened does not change how it is read. -/
theorem textAt_after (h : Abandoned r fs fs') :
    textAt fs' r.indexPath = textAt (FileAction.after r.openIndex fs) r.indexPath := by
  cases h with
  | unopened refused => rw [after_error refused]
  | opened ok grown =>
    obtain ⟨_, located, ⟨_, found⟩, _⟩ := openIndex_ok ok
    rw [after_ok ok, grown.spares.textAt_eq located found]

end Abandoned

/-- If the index is not found, it is read as empty also when its directories have been made
and it has been opened. -/
def OpensAlike (r : FiledRegistry) (fs : FileSystem) : Prop :=
  textAt fs r.indexPath = .error .notFound →
    r.readIndex.answer (FileAction.after r.openIndex fs) = .ok .empty

/-- A change that fails leaves the answers as they were if and only if this holds. -/
theorem Abandoned.sameAnswers_iff (h : Abandoned r fs fs') :
    SameAnswers r fs fs' ↔ OpensAlike r fs := by
  rw [FiledRegistry.sameAnswers_iff, readIndex_answer, readIndex_answer, OpensAlike,
    readIndex_answer, ← h.textAt_after]
  by_cases missing : textAt fs r.indexPath = .error .notFound
  · simp [missing, indexOf]
  · simp [missing, h.textAt_eq missing]

/-! ## Paths of names -/

/-- A path that has no step up and no name that is too long, and ends in a name. -/
structure IsStraight (path : Path) : Prop where
  names : ∀ s ∈ Path.steps path, IsPlainName s
  ends : ∃ front last, Path.segments path = front ++ [last] ∧ Path.isIdle last = false

private theorem readIndex_answer_of_openFile (missing : textAt fs r.indexPath = .error .notFound) :
    r.readIndex.answer (FileAction.after (openFile r.indexPath) fs) = .ok .empty := by
  have same : r.readIndex.answer fs = .ok .empty := by rw [readIndex_answer, missing, indexOf]
  cases opened : openFile r.indexPath fs with
  | error why fs' => rwa [after_error opened, openFile_error opened]
  | ok place fs' =>
    rw [after_ok opened]
    obtain ⟨located, ⟨free, _, put⟩ | ⟨rfl, _⟩⟩ := openFile_ok opened
    · have reaches := put.reaches_of_free located free
      have read : textAt fs' r.indexPath = .ok [] := by
        simp only [textAt, reaches.locate_node, put.self, readNode]
      rw [readIndex_answer, read, indexOf, Index.parse_nil]
    · exact same

private theorem refusal?_of_missing (missing : textAt fs path = .error .notFound)
    (some : path ≠ []) : refusal? path = none := by
  cases located : locate fs .node path with
  | ok place => exact refusal?_of_locate located
  | error why =>
    simp only [textAt, located, Except.error.injEq] at missing
    exact refusal?_of_notFound (missing ▸ located) some

/-- If making the parent of an index that is not found makes anything, nothing can stand under
the index in the directory that is new. -/
private theorem textAt_of_createAll {parent : Path} {last : Text} {front : List Text}
    {fs₁ : FileSystem} (missing : textAt fs path = .error .notFound)
    (allowed : refusal? path = none) (segs : Path.segments path = front ++ [last])
    (kind : Path.isAbsolute parent = Path.isAbsolute path)
    (along : Path.steps parent = front.filter fun s => !Path.isIdle s)
    (noUp : ['.', '.'] ∉ Path.steps parent) (plain : IsPlainName last)
    (made : createDirectories parent fs = .ok () fs₁) :
    textAt fs₁ path = .error .notFound := by
  obtain rfl | ⟨q, dir, kind', steps, up, _, empty⟩ :=
    createAll_fresh (Path.chain_ancestors parent) noUp made
  · exact missing
  · have free : fs₁.get? (.text last :: dir) = none :=
      get?_below_of_childNames empty (below_cons _ _)
    have arrives := up.arrives
    rw [steps, along, startOf, kind', kind, ← startOf] at arrives
    have located : locate fs₁ .node path = .ok (.text last :: dir) := by
      simp only [locate, allowed, segs]
      exact arrives.resolve_last rfl plain (by simp [free]) .node
    simp only [textAt, located, free, readNode]

/-- Along a path of names no directory can be made in front of an index that is there. -/
theorem opensAlike_of_isStraight (straight : IsStraight r.indexPath) (fs : FileSystem) :
    OpensAlike r fs := by
  intro missing
  obtain ⟨front, last, segs, step⟩ := straight.ends
  have nonempty : last ≠ [] := by
    rintro rfl
    simp [Path.isIdle] at step
  have allowed := refusal?_of_missing missing (Path.ne_nil_of_segments segs nonempty)
  obtain ⟨parent, isParent, kind, along, ends, thinner⟩ := Path.exists_parent segs step
  have parts : Path.steps r.indexPath = Path.steps parent ++ [last] := by
    rw [Path.steps, segs, List.filter_append, ← along]
    simp [step]
  obtain ⟨names, plain⟩ := List.forall_mem_append.1 (parts ▸ straight.names)
  have fit : ∀ a ∈ ancestors parent, refusal? a = none ∧ Path.EndsInStep a := by
    intro a mem
    constructor
    · exact refusal?_of_sublist allowed (thinner a mem) (Path.ne_nil_of_mem_ancestors mem)
    · exact ends.of_mem_ancestors mem
  have noUp : ['.', '.'] ∉ Path.steps parent := fun mem => (names _ mem).notUp rfl
  unfold openIndex
  rw [isParent, Option.getD_some]
  cases made : createDirectories parent fs with
  | error why fs₁ =>
    -- The first directory that is missing could not be made, so none was.
    have same := createAll_error_of_names (Path.chain_ancestors parent) names fit made
    rw [after_bind_of_error made, same, readIndex_answer, missing, indexOf]
  | ok _ fs₁ =>
    rw [after_bind_of_ok made]
    apply readIndex_answer_of_openFile
    exact textAt_of_createAll missing allowed segs kind along noUp (plain last (by simp)) made

/-- The index of a home that is named without a step up has such a path. -/
theorem isStraight_registryPath (settings : Settings)
    (home : ∀ s ∈ Path.steps settings.home, IsPlainName s) : IsStraight settings.registryPath := by
  have word : Path.IsWord "templates.json".toList := ⟨by decide, by decide⟩
  constructor
  · intro s mem
    rw [Settings.registryPath, Path.steps_join _ word] at mem
    obtain mem | mem := List.mem_append.1 mem
    · exact home s mem
    · obtain rfl := List.mem_singleton.1 (List.mem_filter.1 mem).1
      exact ⟨by decide, by decide, by decide⟩
  · obtain ⟨front, segs, _⟩ := Path.segments_join settings.home word
    exact ⟨front, _, segs, by decide⟩

/-! ## Steps of commands -/

/-- The step leaves the files and the registry of a workspace alone, whatever its answer. -/
def Looks {α : Type} (x : Job FiledRegistry α) : Prop :=
  ∀ w, (x.after w).files = w.files ∧ (x.after w).registry = w.registry

/-- A step that fails has left the files alone or abandoned a change of the registry. -/
def FailsAbandoned {α : Type} (x : Job FiledRegistry α) : Prop :=
  ∀ w e w', x w = .error e w' → w'.registry = w.registry
    ∧ (w'.files = w.files ∨ Abandoned w.registry w.files w'.files)

section

variable {β : Type} {w w' : Workspace FiledRegistry}

theorem looks_query (ask : FileSystem → Except Error α) :
    Looks (Job.query ask : Job FiledRegistry α) := by
  intro w
  unfold Job.after Job.query
  cases ask w.files <;> exact ⟨rfl, rfl⟩

theorem looks_check (x : Except Error α) : Looks (Job.check x : Job FiledRegistry α) :=
  looks_query _

theorem looks_step {f : FiledRegistry → Instant → Action α} (asks : ∀ r now, Action.Asks (f r now)) :
    Looks (step f) := by
  intro w
  obtain ⟨files, registry⟩ := after_step f w
  exact ⟨files.trans (asks w.registry w.clock w.files), registry⟩

theorem looks_throw (e : Error) : Looks (throw e : Job FiledRegistry α) := fun _ => ⟨rfl, rfl⟩

theorem looks_setClock (now : Instant) :
    Looks (modify fun w => { w with clock := now } : Job FiledRegistry PUnit) :=
  fun _ => ⟨rfl, rfl⟩

theorem Looks.failsAbandoned {x : Job FiledRegistry α} (h : Looks x) : FailsAbandoned x := by
  intro w e w' failed
  have same := h w
  simp only [Job.after, failed] at same
  exact ⟨same.2, .inl same.1⟩

/-- Steps that only look may stand in front of the others. -/
theorem FailsAbandoned.bind {x : Job FiledRegistry α} {f : α → Job FiledRegistry β} (looks : Looks x)
    (more : ∀ a, FailsAbandoned (f a)) : FailsAbandoned (x >>= f) := by
  intro w e w' h
  have same := looks w
  obtain refused | ⟨a, w₁, first, rest⟩ := bind_error_iff.1 h
  · exact looks.failsAbandoned w e w' refused
  · simp only [Job.after, first] at same
    have failed := more a w₁ e w' rest
    rwa [same.1, same.2] at failed

/-- What cannot fail may stand behind them. -/
theorem FailsAbandoned.bind_pure {x : Job FiledRegistry α} (h : FailsAbandoned x) (f : α → β) :
    FailsAbandoned (x >>= fun a => pure (f a)) := by
  intro w e w' failed
  obtain refused | ⟨a, w₁, _, rest⟩ := bind_error_iff.1 failed
  · exact h w e w' refused
  · exact absurd rest (by simp [pure, EStateM.pure])

theorem failsAbandoned_step {f : FiledRegistry → Instant → Action α}
    (h : ∀ r now fs e fs', f r now fs = .error e fs' → Abandoned r fs fs') :
    FailsAbandoned (step f) := by
  intro w e w' failed
  obtain ⟨fs', run, rfl⟩ := Job.onFiles_error_iff.1 failed
  exact ⟨rfl, .inr (h _ _ _ _ _ run)⟩

end

/-! ## Requests -/

/-- What can be asked for that may change a registry: a call of it, or a command. -/
inductive Request
  | call (c : Call)
  | add (settings : Settings) (o : CaptureOptions)
  | update (settings : Settings) (o : CaptureOptions)
  | delete (name : Text)

/-- Do what is asked for, whatever it gives. -/
def Request.perform : Request → Job FiledRegistry Unit
  | call c => do let _ ← (c.make : Job FiledRegistry Answer)
  | add settings o => do let _ ← (Command.add settings o : Job FiledRegistry StoredTemplate)
  | update settings o => do let _ ← (Command.update settings o : Job FiledRegistry StoredTemplate)
  | delete name => do let _ ← (Command.delete name : Job FiledRegistry StoredTemplate)

theorem failsAbandoned_put (name : TemplateName) (origin : Origin) (t : Template) :
    FailsAbandoned (Registry.put name origin t : Job FiledRegistry Record) :=
  failsAbandoned_step fun _ _ _ _ _ => put_abandoned

theorem failsAbandoned_replace (name : TemplateName) (origin : Origin) (t : Template) :
    FailsAbandoned (Registry.replace name origin t : Job FiledRegistry Record) :=
  failsAbandoned_step fun _ _ _ _ _ => replace_abandoned

theorem failsAbandoned_delete (name : TemplateName) :
    FailsAbandoned (Registry.delete name : Job FiledRegistry StoredTemplate) :=
  failsAbandoned_step fun _ _ _ _ _ => delete_abandoned

/-- A capture only looks, so it fails as what is done with it. -/
theorem failsAbandoned_captured {β : Type} {store : Path → Template → Job FiledRegistry β}
    (settings : Settings) (wanted : Path) (ignore : List Text)
    (stores : ∀ projectDir t, FailsAbandoned (store projectDir t)) :
    FailsAbandoned (do
      let projectDir ← Job.query (Command.projectPath wanted)
      let t ← Job.query (Command.capture settings projectDir ignore)
      store projectDir t) := by
  refine .bind (looks_query _) fun projectDir => ?_
  exact .bind (looks_query _) fun t => stores projectDir t

theorem failsAbandoned_add (settings : Settings) (o : CaptureOptions) :
    FailsAbandoned (Command.add settings o : Job FiledRegistry StoredTemplate) := by
  refine .bind (looks_check _) fun name => ?_
  refine .bind (looks_step fun r _ => r.asks_contains name) fun known => ?_
  have stores := failsAbandoned_captured settings o.projectDir o.ignore fun projectDir t =>
    let origin : Origin := ⟨projectDir, o.templateDir.getD settings.templateDir, o.ignore⟩
    (failsAbandoned_put name origin t).bind_pure fun record => StoredTemplate.mk name record t
  split
  · exact .bind (looks_throw _) fun _ => stores
  · exact stores

theorem failsAbandoned_update (settings : Settings) (o : CaptureOptions) :
    FailsAbandoned (Command.update settings o : Job FiledRegistry StoredTemplate) := by
  refine .bind (looks_check _) fun name => ?_
  refine .bind (looks_step fun r _ => r.asks_get name) fun previous => ?_
  apply failsAbandoned_captured
  intro projectDir t
  exact (failsAbandoned_replace name _ t).bind_pure _

theorem Request.failsAbandoned (x : Request) : FailsAbandoned x.perform := by
  cases x with
  | call c =>
    refine .bind_pure ?_ _
    cases c with
    | contains name =>
      exact (looks_step fun r _ => r.asks_contains name).failsAbandoned.bind_pure _
    | get name => exact (looks_step fun r _ => r.asks_get name).failsAbandoned.bind_pure _
    | list => exact (looks_step fun r _ => r.asks_list).failsAbandoned.bind_pure _
    | put now name origin t =>
      exact .bind (looks_setClock now) fun _ => (failsAbandoned_put name origin t).bind_pure _
    | replace now name origin t =>
      exact .bind (looks_setClock now) fun _ => (failsAbandoned_replace name origin t).bind_pure _
    | delete name => exact (failsAbandoned_delete name).bind_pure _
  | add settings o => exact (failsAbandoned_add settings o).bind_pure _
  | update settings o => exact (failsAbandoned_update settings o).bind_pure _
  | delete name =>
    have delete : FailsAbandoned (Command.delete name : Job FiledRegistry StoredTemplate) :=
      .bind (looks_check _) fun name => failsAbandoned_delete name
    exact delete.bind_pure _

/-- A failure keeps every template that was given out. It keeps the answers about names if
nothing was made or the index opens alike, and only then; along a path of names it always
does. -/
theorem failure_keeps_answers_iff {request : Request} {w w' : Workspace FiledRegistry}
    (failed : request.perform w = .error e w') :
    w'.registry = w.registry
      ∧ (∀ name stored, (w.registry.get name).answer w.files = .ok stored →
        (w.registry.get name).answer w'.files = .ok stored)
      ∧ (SameAnswers w.registry w.files w'.files ↔
        w'.files = w.files ∨ OpensAlike w.registry w.files)
      ∧ (IsStraight w.registry.indexPath → SameAnswers w.registry w.files w'.files) := by
  obtain ⟨registry, state⟩ := request.failsAbandoned w e w' failed
  have kept : Spares [] w.files w'.files := by
    obtain same | abandoned := state
    · rw [same]
      exact (Grown.refl _).spares
    · exact abandoned.spares
  have answers : SameAnswers w.registry w.files w'.files ↔
      w'.files = w.files ∨ OpensAlike w.registry w.files := by
    constructor
    · intro answers
      exact state.imp_right fun abandoned => abandoned.sameAnswers_iff.1 answers
    · rintro (same | alike)
      · rw [same]
        exact sameAnswers_iff.2 rfl
      · obtain same | abandoned := state
        · rw [same]
          exact sameAnswers_iff.2 rfl
        · exact abandoned.sameAnswers_iff.2 alike
  refine ⟨registry, ?_, answers, ?_⟩
  · intro name stored got
    have run := (w.registry.asks_get name).run_of_answer got
    exact Action.answer_of_ok (get_ok_spared kept run)
  · intro straight
    exact answers.2 (.inr (opensAlike_of_isStraight straight w.files))

/-- A name that is valid, but too long for a file of its own with an ending. -/
def longName : TemplateName := ⟨List.replicate 251 'a', by decide +kernel⟩

/-- A store that fails when its directories have been made already. -/
theorem failure_keeps_answers_iff_longName :
    ∃ (stored : StoredTemplate) (e : Error) (w' : Workspace FiledRegistry),
      (Request.call (.put .epoch longName ⟨[], "/u/v".toList, []⟩ demoTemplate)).perform
        ⟨homeRegistry, demoFiles, .epoch, .empty⟩ = .error e w'
      ∧ demoFiles.isDirectoryAt [.text "u".toList] = false
      ∧ w'.files.isDirectoryAt [.text "u".toList] = true
      ∧ (homeRegistry.get demoName).answer w'.files = .ok stored
      ∧ SameAnswers homeRegistry demoFiles w'.files := by
  obtain ⟨e, w', failed, absent, made⟩ : ∃ e w',
      (Request.call (.put .epoch longName ⟨[], "/u/v".toList, []⟩ demoTemplate)).perform
        ⟨homeRegistry, demoFiles, .epoch, .empty⟩ = .error e w'
      ∧ demoFiles.isDirectoryAt [.text "u".toList] = false
      ∧ w'.files.isDirectoryAt [.text "u".toList] = true := by
    decide +kernel
  obtain ⟨stored, got⟩ : ∃ stored, (homeRegistry.get demoName).answer demoFiles = .ok stored := by
    decide +kernel
  have straight : IsStraight homeRegistry.indexPath :=
    isStraight_registryPath ⟨"/home".toList, [], [], []⟩ (by decide)
  obtain ⟨_, gets, _, answers⟩ := failure_keeps_answers_iff failed
  dsimp only at gets answers
  exact ⟨stored, e, w', failed, absent, made, gets demoName stored got, answers straight⟩

/-- The registry of a home that is named through a directory that is missing. -/
def roundaboutRegistry : FiledRegistry := ⟨"/new/../home/templates.json".toList⟩

/-- A delete that fails makes the missing directory, and a template that was not known before
is known from then on. -/
theorem exists_failure_not_keeping_answers :
    ∃ e w', (Request.call (.delete indexName)).perform
        ⟨roundaboutRegistry, demoFiles, .epoch, .empty⟩ = .error e w'
      ∧ (roundaboutRegistry.contains demoName).answer demoFiles = .ok false
      ∧ (roundaboutRegistry.contains demoName).answer w'.files = .ok true
      ∧ roundaboutRegistry.list.answer demoFiles = .ok []
      ∧ ¬ SameAnswers roundaboutRegistry demoFiles w'.files := by
  obtain ⟨e, w', failed, before, after, listed⟩ : ∃ e w',
      (Request.call (.delete indexName)).perform ⟨roundaboutRegistry, demoFiles, .epoch, .empty⟩
        = .error e w'
      ∧ (roundaboutRegistry.contains demoName).answer demoFiles = .ok false
      ∧ (roundaboutRegistry.contains demoName).answer w'.files = .ok true
      ∧ roundaboutRegistry.list.answer demoFiles = .ok [] := by
    decide +kernel
  refine ⟨e, w', failed, before, after, listed, ?_⟩
  intro same
  have known := same.contains demoName
  simp [before, after] at known

end FiledRegistry

end Scaffold
