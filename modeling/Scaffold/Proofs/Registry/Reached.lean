import Scaffold.Proofs.Registry.Changes

/-!
# Registries that are used

A registry is used from a fresh home on by one call after the other. As long as no config
file takes the place of a link on the way to a config file, it stays in order, or its index
is lost and no call succeeds any more. While it is in order, a store does what it should
exactly if its own config file meets nothing.
-/

namespace Scaffold

open FileSystem FileAction

namespace FiledRegistry

variable {r : FiledRegistry} {fs fs' fs₁ : FileSystem} {place config : Place} {path : Path}
  {index : Index} {name m : TemplateName} {record : Record} {t : Template} {now : Instant}
  {origin : Origin} {stale : List Place}
  {P : Index → Place → FileSystem → Place → Prop}

/-! ## Before a store -/

/-- The property holds of the index, its place, the files once the directory of the config
file is made, and the place of the config file. -/
def WhenReady (r : FiledRegistry) (name : TemplateName) (origin : Origin) (fs : FileSystem)
    (P : Index → Place → FileSystem → Place → Prop) : Prop :=
  ∀ index place fs₁ config, r.readIndex fs = .ok index fs →
    r.prepare origin.location fs = .ok place fs₁ →
    locate fs₁ .entry (origin.configFile name) = .ok config → P index place fs₁ config

theorem whenReady_iff (read : r.readIndex fs = .ok index fs)
    (ready : r.prepare origin.location fs = .ok place fs₁)
    (located : locate fs₁ .entry (origin.configFile name) = .ok config) :
    r.WhenReady name origin fs P ↔ P index place fs₁ config := by
  constructor
  · exact fun h => h index place fs₁ config read ready located
  · intro h index' place' fs₂ config' read' ready' located'
    obtain rfl : index = index' := by simpa [read] using read'
    obtain ⟨rfl, rfl⟩ : place = place' ∧ fs₁ = fs₂ := by simpa [ready] using ready'
    obtain rfl := Except.ok.inj (located.symm.trans located')
    exact h

instance [∀ index place fs₁ config, Decidable (P index place fs₁ config)] :
    Decidable (r.WhenReady name origin fs P) :=
  decidable_of_iff ((match r.readIndex fs, r.prepare origin.location fs with
    | .ok index _, .ok place fs₁ =>
      match locate fs₁ .entry (origin.configFile name) with
      | .ok config => decide (P index place fs₁ config)
      | .error _ => true
    | _, _ => true) = true) (by
    constructor
    · intro h index place fs₁ config read ready located
      simpa only [read, ready, located, decide_eq_true_eq] using h
    · intro h
      split
      · rename_i index fs₂ place fs₁ read ready
        obtain rfl : fs₂ = fs := (Action.after_of_ok read).symm.trans (r.asks_readIndex fs)
        split
        · rename_i config located
          exact decide_eq_true (h index place fs₁ config read ready located)
        · rfl
      · rfl)

/-- No directory comes to where the config file of another template is missing. -/
def KeepsMissing (fs fs₁ : FileSystem) (index : Index) (name : TemplateName) : Prop :=
  ∀ m record, m ≠ name → index.get? m = some record →
    ∀ q, locate fs .entry record.configFile = .ok q → fs.get? q = none → fs₁.get? q = none

instance : Decidable (KeepsMissing fs fs₁ index name) :=
  decidable_of_iff (∀ e ∈ index.entries, e.1 ≠ name →
      ∀ q ∈ (locate fs .entry e.2.configFile).toOption, fs.get? q = none → fs₁.get? q = none)
    ⟨fun h m record differ found q located =>
        h (m, record) (SortedMap.mem_entries_iff.2 found) differ q (by simp [located, Except.toOption]),
      fun h e mem differ q there => h e.1 e.2 differ (SortedMap.mem_entries_iff.1 mem) q (by
        cases located : locate fs .entry e.2.configFile <;> simp_all [Except.toOption])⟩

/-- The config file of this template will be separate, and the directory for it is in the
way of no other one. -/
def IsClear (r : FiledRegistry) (name : TemplateName) (origin : Origin) (fs : FileSystem) : Prop :=
  r.WhenReady name origin fs fun index place fs₁ config =>
    Separate r fs₁ index name (origin.configFile name) place config
      ∧ KeepsMissing fs fs₁ index name

instance : Decidable (r.IsClear name origin fs) :=
  inferInstanceAs (Decidable (r.WhenReady ..))

/-- The config file of this template will replace no link on the way to a config file. -/
def StoreKeepsWays (r : FiledRegistry) (name : TemplateName) (origin : Origin)
    (fs : FileSystem) : Prop :=
  r.WhenReady name origin fs fun index _ fs₁ config =>
    KeepsWays fs₁ index name (origin.configFile name) config

instance : Decidable (r.StoreKeepsWays name origin fs) :=
  inferInstanceAs (Decidable (r.WhenReady ..))

/-- What was registered can be missing, but is not blocked. -/
private theorem Sound.get_ne (h : r.Sound fs index) (read : r.readIndex fs = .ok index fs)
    (m : TemplateName) : (r.get m).answer fs ≠ .error (.io .notADirectory) := by
  cases found : index.get? m with
  | none => simp [get_answer_none read found]
  | some record =>
    cases h with
    | fresh => simp at found
    | indexed order =>
      obtain ⟨q, reaches, _⟩ := order.configs m record found
      rw [get_answer_some read found reaches]
      have sound := configAnswer_ne m record (fs.get? q)
      cases answer : configAnswer m record (fs.get? q) with
      | ok t => simp [Except.map]
      | error e =>
        rw [answer] at sound
        simpa [Except.map] using sound

/-- To prepare a store changes no answer unless a directory comes to where a config file is
missing. -/
private theorem Sound.answers (h : r.Sound fs index) (name : TemplateName)
    (ready : r.prepare path fs = .ok place fs₁) :
    r.list.answer fs₁ = r.list.answer fs
      ∧ (∀ m, (r.contains m).answer fs₁ = (r.contains m).answer fs)
      ∧ (KeepsMissing fs fs₁ index name → ∀ m, m ≠ name →
        (r.get m).answer fs₁ = (r.get m).answer fs) := by
  obtain ⟨before, order, more⟩ := h.prepare_ok ready
  have after := order.readIndex_eq
  refine ⟨?_, fun m => ?_, fun keeps m differ => ?_⟩
  · rw [list_answer before, list_answer after]
  · rw [contains_answer before, contains_answer after]
  cases found : index.get? m with
  | none => rw [get_answer_none before found, get_answer_none after found]
  | some record =>
    cases h with
    | fresh => simp at found
    | indexed order =>
      have grown : Grown fs fs₁ := by
        refine more.resolve_left fun empty => ?_
        simp [empty] at found
      obtain ⟨q, reaches, _⟩ := order.configs m record found
      have same : fs₁.get? q = fs.get? q := by
        cases there : fs.get? q with
        | none => exact keeps m record differ found q reaches.located there
        | some x => exact grown.kept q x there
      rw [get_answer_some before found reaches, get_answer_some after found (reaches.grown grown),
        same]

section

variable (sound : r.Sound fs index) (ready : r.prepare path fs = .ok place fs₁)
  (stage : Stage r index name record t place config stale fs₁ fs')

include sound ready stage

private theorem stores_of_separate (wf : t.WellFormed)
    (separate : Separate r fs₁ index name record.configFile place config)
    (keeps : KeepsMissing fs fs₁ index name) :
    Stores r name (index.get? name) record t fs fs' := by
  obtain ⟨list, contains, get⟩ := sound.answers name ready
  have stores := stage.stores wf separate
  refine ⟨list ▸ stores.list, stores.get, fun m differ => ?_⟩
  rw [← contains m, ← get keeps m differ]
  exact stores.others m differ

private theorem separate_of_stores {old : Option Record}
    (stores : Stores r name old record t fs fs') :
    Separate r fs₁ index name record.configFile place config
      ∧ KeepsMissing fs fs₁ index name := by
  obtain ⟨before, _, more⟩ := sound.prepare_ok ready
  have separate := stage.separate stores.get fun m differ => by
    rw [(stores.others m differ).2]
    exact sound.get_ne before m
  refine ⟨separate, fun m other differ found q located missing => ?_⟩
  cases blocked : fs₁.get? q with
  | none => rfl
  | some x =>
    cases sound with
    | fresh => simp at found
    | indexed order =>
      exfalso
      have grown : Grown fs fs₁ := by
        refine more.resolve_left fun empty => ?_
        simp [empty] at found
      have reaches := order.reaches_config found located
      have answer := stage.get_spared separate.apart separate.route differ found
        (reaches.grown grown) (separate.ways.others m other differ found)
      have dir := grown.added q x missing blocked
      rw [(stores.others m differ).2, get_answer_some before found reaches, missing, blocked]
        at answer
      cases x <;> simp [Node.isDirectory, configAnswer, readNode, Except.map] at dir answer

end

/-! ## Calls -/

/-- A call of the registry. -/
inductive Call
  | contains (name : TemplateName)
  | get (name : TemplateName)
  | list
  | put (now : Instant) (name : TemplateName) (origin : Origin) (t : Template)
  | replace (now : Instant) (name : TemplateName) (origin : Origin) (t : Template)
  | delete (name : TemplateName)

namespace Call

/-- The files after a call, whatever its answer. -/
def after (r : FiledRegistry) : Call → FileSystem → FileSystem
  | contains name => (r.contains name).after
  | get name => (r.get name).after
  | list => r.list.after
  | put now name origin t => (r.put now name origin t).after
  | replace now name origin t => (r.replace now name origin t).after
  | delete name => (r.delete name).after

/-- If the call stores a template, it does so at a proper time. -/
def IsTimed : Call → Prop
  | put now .. | replace now .. => now.IsProper
  | _ => True

/-- If the call stores a template, it replaces no link on the way to a config file. -/
def KeepsWays (r : FiledRegistry) (fs : FileSystem) : Call → Prop
  | put now name origin t =>
    ((r.put now name origin t).answer fs).isOk = true → r.StoreKeepsWays name origin fs
  | replace now name origin t =>
    ((r.replace now name origin t).answer fs).isOk = true → r.StoreKeepsWays name origin fs
  | _ => True

instance (r : FiledRegistry) (fs : FileSystem) : (c : Call) → Decidable (c.KeepsWays r fs)
  | put .. | replace .. => inferInstanceAs (Decidable (_ → _))
  | contains _ | get _ | list | delete _ => inferInstanceAs (Decidable True)

/-- A call leaves a registry that is in order so, or its index is lost. -/
theorem sound (c : Call) (h : r.Sound fs index) (timed : c.IsTimed) (keeps : c.KeepsWays r fs) :
    (∃ index', r.Sound (c.after r fs) index') ∨ r.IsLost (c.after r fs) := by
  cases c with
  | contains name => exact .inl ⟨index, by rwa [after, r.asks_contains name fs]⟩
  | get name => exact .inl ⟨index, by rwa [after, r.asks_get name fs]⟩
  | list => exact .inl ⟨index, by rwa [after, r.asks_list fs]⟩
  | put now name origin t =>
    cases run : r.put now name origin t fs with
    | ok record fs' =>
      obtain ⟨_, rfl, place, config, fs₁, ready, stage⟩ := put_ok h timed run
      have keeps := keeps (by rw [Action.answer_of_ok run]; rfl)
      have ways := (whenReady_iff (h.prepare_ok ready).1 ready stage.located).1 keeps
      rw [after, Action.after_of_ok run]
      exact (stage.sound_or_isLost ways).imp_left fun sound => ⟨_, sound⟩
    | error e fs' =>
      rw [after, Action.after_of_error run]
      exact .inl ⟨index, (put_abandoned run).sound h⟩
  | replace now name origin t =>
    cases run : r.replace now name origin t fs with
    | ok record fs' =>
      obtain ⟨_, _, rfl, place, config, stale, fs₁, ready, stage⟩ := replace_ok h timed run
      have keeps := keeps (by rw [Action.answer_of_ok run]; rfl)
      have ways := (whenReady_iff (h.prepare_ok ready).1 ready stage.located).1 keeps
      rw [after, Action.after_of_ok run]
      exact (stage.sound_or_isLost ways).imp_left fun sound => ⟨_, sound⟩
    | error e fs' =>
      rw [after, Action.after_of_error run]
      exact .inl ⟨index, (replace_abandoned run).sound h⟩
  | delete name =>
    cases run : r.delete name fs with
    | ok stored fs' =>
      obtain ⟨place, order⟩ := delete_ok h run
      rw [after, Action.after_of_ok run]
      exact .inl ⟨_, .indexed order⟩
    | error e fs' =>
      rw [after, Action.after_of_error run]
      exact .inl ⟨index, (delete_abandoned run).sound h⟩

/-- Once its index is lost, no call brings it back. -/
theorem isLost (c : Call) (h : r.IsLost fs) : r.IsLost (c.after r fs) := by
  have change {α : Type} (f : Index → Action (α × Index × List Place)) :
      r.IsLost ((r.updateIndex f).after fs) := by
    obtain ⟨e, fs', run, grown⟩ := h.updateIndex_error f
    rw [Action.after_of_error run]
    exact h.grown grown
  cases c with
  | contains name => rwa [after, r.asks_contains name fs]
  | get name => rwa [after, r.asks_get name fs]
  | list => rwa [after, r.asks_list fs]
  | put now name origin t => exact change _
  | replace now name origin t => exact change _
  | delete name => exact change _

end Call

/-- The files of a registry that was used from a fresh home on, no config file ever taking
the place of a link on the way to a config file. -/
inductive Reached (r : FiledRegistry) : FileSystem → Prop
  | fresh {fs : FileSystem} (free : r.IsFresh fs) : Reached r fs
  | call {fs : FileSystem} (c : Call) (before : Reached r fs) (timed : c.IsTimed)
      (keeps : c.KeepsWays r fs) : Reached r (c.after r fs)

theorem Reached.sound (h : r.Reached fs) : (∃ index, r.Sound fs index) ∨ r.IsLost fs := by
  induction h with
  | fresh free => exact .inl ⟨_, .fresh free⟩
  | call c _ timed keeps ih =>
    rcases ih with ⟨index, sound⟩ | lost
    · exact c.sound sound timed keeps
    · exact .inr (c.isLost lost)

/-- If the call stores a template, it does with it what it should. -/
def Call.IsLawful (r : FiledRegistry) (fs : FileSystem) : Call → Prop
  | put now name origin t => ∀ record fs', r.put now name origin t fs = .ok record fs' →
    Stores r name none record t fs fs'
  | replace now name origin t => ∀ record fs', r.replace now name origin t fs = .ok record fs' →
    ∃ old, Stores r name (some old) record t fs fs'
  | _ => True

/-- A store that does what it should replaces no link on the way to a config file. -/
private theorem Call.keepsWays_of_isLawful (c : Call) (sound : r.Sound fs index)
    (timed : c.IsTimed) (lawful : c.IsLawful r fs) : c.KeepsWays r fs := by
  have keeps {name : TemplateName} {origin : Origin} {t : Template} {fs₁ fs' : FileSystem}
      {old : Option Record} {now : Instant} {place config : Place} {stale : List Place}
      (ready : r.prepare origin.location fs = .ok place fs₁)
      (stage : Stage r index name (origin.record name (some now)) t place config stale fs₁ fs')
      (stores : Stores r name old (origin.record name (some now)) t fs fs') :
      r.StoreKeepsWays name origin fs :=
    (whenReady_iff (sound.prepare_ok ready).1 ready stage.located).2
      (separate_of_stores sound ready stage stores).1.ways
  cases c with
  | put now name origin t =>
    intro answered
    obtain ⟨record, fs', run⟩ := Action.isOk_answer_iff.1 answered
    obtain ⟨_, rfl, _, _, _, ready, stage⟩ := put_ok sound timed run
    exact keeps ready stage (lawful _ _ run)
  | replace now name origin t =>
    intro answered
    obtain ⟨record, fs', run⟩ := Action.isOk_answer_iff.1 answered
    obtain ⟨_, _, rfl, _, _, _, _, ready, stage⟩ := replace_ok sound timed run
    obtain ⟨_, stores⟩ := lawful _ _ run
    exact keeps ready stage stores
  | _ => trivial

private theorem IsLost.updateIndex_ne_ok {α : Type} {a : α}
    {change : Index → Action (α × Index × List Place)} (h : r.IsLost fs) :
    r.updateIndex change fs ≠ .ok a fs' := by
  obtain ⟨e, fs₁, run, _⟩ := h.updateIndex_error change
  simp [run]

private theorem Call.keepsWays_of_isLost (c : Call) (lost : r.IsLost fs) : c.KeepsWays r fs := by
  cases c with
  | put | replace =>
    intro answered
    obtain ⟨_, _, run⟩ := Action.isOk_answer_iff.1 answered
    exact absurd run lost.updateIndex_ne_ok
  | _ => trivial

/-- Whatever is called leads nowhere else as long as every store does what it should. -/
theorem Reached.lawful (h : r.Reached fs) (c : Call) (timed : c.IsTimed)
    (lawful : c.IsLawful r fs) : r.Reached (c.after r fs) := by
  rcases h.sound with ⟨index, sound⟩ | lost
  · exact h.call c timed (c.keepsWays_of_isLawful sound timed lawful)
  · exact h.call c timed (c.keepsWays_of_isLost lost)

/-! ## Stores -/

/-- A template that is put is stored, and costs no other one, exactly if it meets nothing. -/
theorem put_stores_iff (reached : r.Reached fs) (wf : t.WellFormed) (proper : now.IsProper)
    (ok : r.put now name origin t fs = .ok record fs') :
    r.IsClear name origin fs ↔ Stores r name none record t fs fs' := by
  rcases reached.sound with ⟨index, sound⟩ | lost
  · obtain ⟨free, rfl, place, config, fs₁, ready, stage⟩ := put_ok sound proper ok
    rw [IsClear, whenReady_iff (sound.prepare_ok ready).1 ready stage.located]
    constructor
    · rintro ⟨separate, keeps⟩
      have stores := stores_of_separate sound ready stage wf separate keeps
      rwa [free] at stores
    · exact separate_of_stores sound ready stage
  · exact absurd ok lost.updateIndex_ne_ok

/-- A registry with its index in a directory of its own. -/
def homeRegistry : FiledRegistry := ⟨"/home/templates.json".toList⟩

/-- Where nothing is, nothing was registered. -/
theorem isFresh_empty : homeRegistry.IsFresh .empty :=
  isFresh_of_clear (by decide) (by decide) (by decide +kernel)

def demoName : TemplateName := ⟨"demo".toList, by decide⟩

/-- The name whose config file has the name of the index. -/
def indexName : TemplateName := ⟨"templates".toList, by decide⟩

def demoTemplate : Template :=
  ⟨[⟨"a.txt".toList, .file, ".".toList, 0o644, some "x".toList, []⟩], []⟩

theorem put_stores_iff_demo :
    ∃ record fs', homeRegistry.put .epoch demoName ⟨[], "t".toList, []⟩ demoTemplate .empty
        = .ok record fs'
      ∧ Stores homeRegistry demoName none record demoTemplate .empty fs' := by
  obtain ⟨record, fs', ok⟩ : ∃ record fs', homeRegistry.put .epoch demoName ⟨[], "t".toList, []⟩
      demoTemplate .empty = .ok record fs' := by
    decide +kernel
  have clear : homeRegistry.IsClear demoName ⟨[], "t".toList, []⟩ .empty := by decide +kernel
  exact ⟨record, fs', ok,
    (put_stores_iff (.fresh isFresh_empty) (by decide) Instant.isProper_epoch ok).1 clear⟩

/-- The files of a registry with one template, whose config file has a relative path. -/
def demoFiles : FileSystem :=
  (Call.put .epoch demoName ⟨[], "t".toList, []⟩ demoTemplate).after homeRegistry .empty

theorem reached_demoFiles : homeRegistry.Reached demoFiles :=
  .call _ (.fresh isFresh_empty) Instant.isProper_epoch (by decide +kernel)

/-- A template whose config file takes the place of the index costs all others. -/
theorem exists_put_not_stores :
    ∃ record fs', homeRegistry.Reached demoFiles ∧ demoTemplate.WellFormed ∧ Instant.epoch.IsProper
      ∧ homeRegistry.put .epoch indexName ⟨[], "/home".toList, []⟩ demoTemplate demoFiles
        = .ok record fs'
      ∧ (homeRegistry.contains demoName).answer demoFiles = .ok true
      ∧ (homeRegistry.contains demoName).answer fs' = .error (.json .mismatch)
      ∧ ¬ Stores homeRegistry indexName none record demoTemplate demoFiles fs' := by
  have before : (homeRegistry.contains demoName).answer demoFiles = .ok true := by decide +kernel
  obtain ⟨record, fs', ok, after⟩ : ∃ record fs', homeRegistry.put .epoch indexName
        ⟨[], "/home".toList, []⟩ demoTemplate demoFiles = .ok record fs'
      ∧ (homeRegistry.contains demoName).answer fs' = .error (.json .mismatch) := by
    decide +kernel
  refine ⟨record, fs', reached_demoFiles, by decide, Instant.isProper_epoch, ok, before, after,
    fun stores => ?_⟩
  have same := (stores.others demoName (by decide)).1
  simp [before, after] at same

/-- A template that replaces one is stored in its stead, and costs no other one, exactly if
it meets nothing. -/
theorem replace_stores_iff (reached : r.Reached fs) (wf : t.WellFormed) (proper : now.IsProper)
    (ok : r.replace now name origin t fs = .ok record fs') :
    r.IsClear name origin fs ↔ ∃ old, Stores r name (some old) record t fs fs' := by
  rcases reached.sound with ⟨index, sound⟩ | lost
  · obtain ⟨old, found, rfl, place, config, stale, fs₁, ready, stage⟩ :=
      replace_ok sound proper ok
    rw [IsClear, whenReady_iff (sound.prepare_ok ready).1 ready stage.located]
    constructor
    · rintro ⟨separate, keeps⟩
      have stores := stores_of_separate sound ready stage wf separate keeps
      exact ⟨old, by rwa [found] at stores⟩
    · rintro ⟨_, stores⟩
      exact separate_of_stores sound ready stage stores
  · exact absurd ok lost.updateIndex_ne_ok

theorem replace_stores_iff_demo :
    ∃ record fs' old, homeRegistry.replace .epoch demoName ⟨[], "u".toList, []⟩ demoTemplate
        demoFiles = .ok record fs'
      ∧ Stores homeRegistry demoName (some old) record demoTemplate demoFiles fs' := by
  obtain ⟨record, fs', ok⟩ : ∃ record fs', homeRegistry.replace .epoch demoName
      ⟨[], "u".toList, []⟩ demoTemplate demoFiles = .ok record fs' := by
    decide +kernel
  have clear : homeRegistry.IsClear demoName ⟨[], "u".toList, []⟩ demoFiles := by decide +kernel
  obtain ⟨old, stores⟩ :=
    (replace_stores_iff reached_demoFiles (by decide) Instant.isProper_epoch ok).1 clear
  exact ⟨record, fs', old, ok, stores⟩

/-- A template that is replaced in the same directory under another path is lost. -/
theorem exists_replace_not_stores :
    ∃ record fs' path, homeRegistry.Reached demoFiles ∧ demoTemplate.WellFormed ∧ Instant.epoch.IsProper
      ∧ homeRegistry.replace .epoch demoName ⟨[], "/t".toList, []⟩ demoTemplate demoFiles
        = .ok record fs'
      ∧ (homeRegistry.get demoName).answer fs' = .error (.configMissing path demoName.text)
      ∧ ∀ old, ¬ Stores homeRegistry demoName old record demoTemplate demoFiles fs' := by
  obtain ⟨record, fs', ok, lost⟩ : ∃ record fs', homeRegistry.replace .epoch demoName
        ⟨[], "/t".toList, []⟩ demoTemplate demoFiles = .ok record fs'
      ∧ (homeRegistry.get demoName).answer fs'
        = .error (.configMissing "/t/demo.json".toList demoName.text) := by
    decide +kernel
  refine ⟨record, fs', _, reached_demoFiles, by decide, Instant.isProper_epoch, ok, lost,
    fun old stores => ?_⟩
  simp [stores.get] at lost

end FiledRegistry

end Scaffold
