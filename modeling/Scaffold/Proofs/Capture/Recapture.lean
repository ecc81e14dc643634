import Scaffold.Proofs.Capture.RoundTrip
import Scaffold.Proofs.Capture.Unchanged
import Scaffold.Proofs.Registry.Links
import Scaffold.Proofs.Registry.Renewal

/-!
# Capturing a project again

A template that was just added can be captured anew, with nothing given but its name, as
often as one likes. Each time the registry holds what it held before, and only the time is a
new one. This fails exactly if the add itself was in its own way: its config file has taken
the place of the index or of a link that is followed on the way, or what is visible of the
project is not what it was when it was captured.
-/

namespace Scaffold

open FileSystem FileAction

/-! ## Commands -/

/-- Nothing is given but a name. -/
def CaptureOptions.named (name : Text) : CaptureOptions := ⟨name, [], none, []⟩

/-- The origin that a record tells. -/
def Record.origin (record : Record) : Origin := ⟨record.projectDir, record.location, record.ignore⟩

/-- The same template, stored at another time. -/
def StoredTemplate.dated (stored : StoredTemplate) (now : Instant) : StoredTemplate :=
  { stored with record := { stored.record with createdAt := some now } }

variable {fs fs' base : FileSystem} {root place config : Place} {mode : Mode}
  {settings settings' : Settings} {name : TemplateName} {origin : Origin} {t : Template}
  {ps : IgnorePatterns} {index index' : Index} {now : Instant} {time : Option Instant}

namespace Command

/-- Capture a template anew at one time after another. -/
def renewals (settings : Settings) (name : Text) :
    List Instant → Job FiledRegistry (List StoredTemplate)
  | [] => pure []
  | now :: times => do
    modify fun w => { w with clock := now }
    let stored ← update settings (.named name)
    let more ← renewals settings name times
    return stored :: more

variable {o : CaptureOptions} {w w' : Workspace FiledRegistry} {stored : StoredTemplate}
  {n : Text} {times : List Instant} {all : List StoredTemplate}

/-- A directory is captured and its template is stored, whichever way that is done. -/
theorem capturing_ok_iff {wanted : Path} {ignore : List Text}
    {store : Path → Template → Job FiledRegistry Record} :
    (do
      let path ← Job.query (projectPath wanted)
      let t ← Job.query (capture settings path ignore)
      let record ← store path t
      return ⟨name, record, t⟩ : Job FiledRegistry StoredTemplate) w = .ok stored w'
    ↔ stored.name = name ∧ ∃ path, projectPath wanted w.files = .ok path
      ∧ capture settings path ignore w.files = .ok stored.template
      ∧ store path stored.template w = .ok stored.record w' := by
  constructor
  · intro h
    obtain ⟨path, _, looked, scanning⟩ := bind_ok_iff.1 h
    obtain ⟨found, rfl⟩ := Job.query_ok_iff.1 looked
    obtain ⟨t, _, scanned, storing⟩ := bind_ok_iff.1 scanning
    obtain ⟨captured, rfl⟩ := Job.query_ok_iff.1 scanned
    obtain ⟨record, _, done, last⟩ := bind_ok_iff.1 storing
    obtain ⟨rfl, rfl⟩ := pure_ok_iff.1 last
    exact ⟨rfl, path, found, captured, done⟩
  · rintro ⟨rfl, path, found, captured, done⟩
    refine bind_ok_iff.2 ⟨path, w, Job.query_ok_iff.2 ⟨found, rfl⟩, ?_⟩
    refine bind_ok_iff.2 ⟨stored.template, w, Job.query_ok_iff.2 ⟨captured, rfl⟩, ?_⟩
    exact bind_ok_iff.2 ⟨stored.record, w', done, rfl⟩

/-- A project is added by capturing it and putting the template under a new name. -/
theorem add_ok (h : add settings o w = .ok stored w') :
    TemplateName.ofText o.name = .ok stored.name
      ∧ (w.registry.contains stored.name).answer w.files = .ok false
      ∧ ∃ path fs, projectPath o.projectDir w.files = .ok path
        ∧ capture settings path o.ignore w.files = .ok stored.template
        ∧ w.registry.put w.clock stored.name
            ⟨path, o.templateDir.getD settings.templateDir, o.ignore⟩ stored.template w.files
          = .ok stored.record fs
        ∧ w' = { w with files := fs } := by
  obtain ⟨name, _, checked, asking⟩ := bind_ok_iff.1 h
  obtain ⟨valid, rfl⟩ := Job.check_ok_iff.1 checked
  obtain ⟨known, _, asked, capturing⟩ := bind_ok_iff.1 asking
  obtain ⟨answered, rfl⟩ := (Job.onFiles_ok_iff_of_asks (FiledRegistry.asks_contains _ name)).1 asked
  dsimp only at capturing
  split at capturing
  · exact absurd capturing throw_ne_ok
  rename_i new
  obtain rfl : known = false := by simpa using new
  obtain ⟨rfl, path, found, captured, done⟩ := capturing_ok_iff.1 capturing
  obtain ⟨fs, put, rfl⟩ := Job.onFiles_ok_iff.1 done
  exact ⟨valid, answered, path, fs, found, captured, put, rfl⟩

/-- With nothing but a name, a template is captured anew from its record. -/
theorem update_named_ok_iff : update settings (.named name.text) w = .ok stored w'
    ↔ stored.name = name ∧ ∃ previous path fs,
      (w.registry.get name).answer w.files = .ok previous
        ∧ projectPath previous.record.projectDir w.files = .ok path
        ∧ capture settings path previous.record.ignore w.files = .ok stored.template
        ∧ w.registry.replace w.clock name ⟨path, previous.record.location, previous.record.ignore⟩
          stored.template w.files = .ok stored.record fs
        ∧ w' = { w with files := fs } := by
  have valid := TemplateName.ofText_text name
  constructor
  · intro h
    obtain ⟨name', _, checked, asking⟩ := bind_ok_iff.1 h
    obtain ⟨valid', rfl⟩ := Job.check_ok_iff.1 checked
    obtain rfl := Except.ok.inj (valid.symm.trans valid')
    obtain ⟨previous, _, asked, capturing⟩ := bind_ok_iff.1 asking
    obtain ⟨got, rfl⟩ := (Job.onFiles_ok_iff_of_asks (FiledRegistry.asks_get _ name)).1 asked
    obtain ⟨rfl, path, found, captured, done⟩ := capturing_ok_iff.1 capturing
    obtain ⟨fs, replaced, rfl⟩ := Job.onFiles_ok_iff.1 done
    exact ⟨rfl, previous, path, fs, got, found, captured, replaced, rfl⟩
  · rintro ⟨rfl, previous, path, fs, got, found, captured, replaced, rfl⟩
    have asked := (Job.onFiles_ok_iff_of_asks (w.registry.asks_get stored.name)).2 ⟨got, rfl⟩
    refine bind_ok_iff.2 ⟨_, w, Job.check_ok_iff.2 ⟨valid, rfl⟩, ?_⟩
    refine bind_ok_iff.2 ⟨previous, w, asked, ?_⟩
    exact capturing_ok_iff.2
      ⟨rfl, path, found, captured, Job.onFiles_ok_iff.2 ⟨fs, replaced, rfl⟩⟩

/-- A template that is not given out is not captured anew. -/
theorem update_named_error {e : Error} (lost : (w.registry.get name).answer w.files = .error e) :
    update settings (.named name.text) w = .error e w := by
  have got := (w.registry.asks_get name).run_of_answer_error lost
  refine bind_error_iff.2 (.inr ⟨name, w, Job.check_ok_iff.2 ⟨TemplateName.ofText_text _, rfl⟩, ?_⟩)
  exact bind_error_iff.2 (.inl (Job.onFiles_error_iff.2 ⟨_, got, rfl⟩))

theorem renewals_cons_ok_iff : renewals settings n (now :: times) w = .ok all w'
    ↔ ∃ stored w₁ more, update settings (.named n) { w with clock := now } = .ok stored w₁
      ∧ renewals settings n times w₁ = .ok more w' ∧ all = stored :: more := by
  have run : renewals settings n (now :: times) w
      = (update settings (.named n) >>= fun stored => renewals settings n times >>= fun more =>
        pure (stored :: more) : Job FiledRegistry (List StoredTemplate)) { w with clock := now } :=
    rfl
  simp only [run, bind_ok_iff, pure_ok_iff]
  constructor
  · rintro ⟨stored, w₁, updated, more, w₂, others, rfl, rfl⟩
    exact ⟨stored, w₁, more, updated, others, rfl⟩
  · rintro ⟨stored, w₁, more, updated, others, rfl⟩
    exact ⟨stored, w₁, updated, more, w', others, rfl, rfl⟩

end Command

/-! ## One capture after the other -/

/-- The template can be stored again, the project of its origin still gives it, and the index
is nothing that is visible there. -/
structure Recaptures (settings : Settings) (r : FiledRegistry) (name : TemplateName)
    (origin : Origin) (t : Template) (root place config : Place) (fs : FileSystem)
    (index : Index) : Prop where
  renews : FiledRegistry.Renews r name origin t place config fs index
  project : origin.projectDir = pathOf root
  plain : IsPlainDirectory fs root
  captured : Command.capture settings (pathOf root) origin.ignore fs = .ok t
  hidden : ∀ ps, IgnorePatterns.compile (settings.ignore ++ origin.ignore) = .ok ps →
    ∀ names, names ≠ [] → Scan.isVisible ps names = true → names ++ root ≠ place

namespace Recaptures

/-- If only the index is written over, the template can be captured again as before. -/
theorem put {r : FiledRegistry} (h : Recaptures settings r name origin t root place config fs index)
    (put : IsPut fs place (.file (.text index'.render) mode) fs') (timed : index'.IsTimed) :
    Recaptures settings r name origin t root place config fs' index' := by
  obtain ⟨_, found⟩ := h.renews.stored
  obtain ⟨ps, _, compiled, _⟩ := Command.capture_ok_iff.1 h.captured
  have plain : IsPlainDirectory fs' root :=
    ⟨(put.isDirectoryAt_eq found root).trans h.plain.there, h.plain.above, h.plain.short,
      fun q target below link =>
        h.plain.noLink q target below (put.makesNoLink (by simp) q target link)⟩
  have same : SameVisible ps root fs fs' :=
    fun names some visible => put.other (h.hidden ps compiled names some visible)
  exact ⟨h.renews.put put timed, h.project, plain,
    (Command.capture_again_iff h.plain plain compiled h.captured rfl).2 same, h.hidden⟩

variable {w : Workspace FiledRegistry}

/-- The template is captured again, and nothing but the index changes. -/
theorem exists_update
    (h : Recaptures settings w.registry name origin t root place config w.files index)
    (found : index.get? name = some (origin.record name time)) :
    ∃ fs mode, Command.update settings (.named name.text) w
        = .ok ⟨name, origin.record name (some w.clock), t⟩ { w with files := fs }
      ∧ IsPut w.files place (.file (.text (Index.render
        (index.insert name (origin.record name (some w.clock))))) mode) fs := by
  obtain ⟨fs, mode, replaced, put⟩ := h.renews.replace found w.clock
  have got := h.renews.get (Command.isCaptured_of_capture h.captured).wellFormed found
  obtain ⟨_, there⟩ := get?_of_isDirectoryAt h.plain.there
  have looked : Command.projectPath origin.projectDir w.files = .ok origin.projectDir := by
    rw [h.project]
    exact Command.projectPath_ok_iff.2
      ⟨root, _, lookup_pathOf h.plain.above there h.plain.short, h.plain.short, rfl⟩
  refine ⟨fs, mode, Command.update_named_ok_iff.2 ⟨rfl, _, _, fs, Action.answer_of_ok got, looked,
    ?_, replaced, rfl⟩, put⟩
  rw [h.project]
  exact h.captured

/-- The template is captured again at each of the times, and only the index changes, in which
it has the last time. -/
theorem exists_renewals {times : List Instant}
    (h : Recaptures settings w.registry name origin t root place config w.files index)
    (found : index.get? name = some (origin.record name (some now))) (proper : now.IsProper)
    (all : ∀ now ∈ times, now.IsProper) :
    ∃ last w' mode, last.IsProper
      ∧ times.foldl StoredTemplate.dated ⟨name, origin.record name (some now), t⟩
        = ⟨name, origin.record name (some last), t⟩
      ∧ Command.renewals settings name.text times w
        = .ok (times.map (StoredTemplate.dated ⟨name, origin.record name (some now), t⟩)) w'
      ∧ IsPut w.files place (.file (.text (Index.render
        (index.insert name (origin.record name (some last))))) mode) w'.files := by
  induction times generalizing w index now with
  | nil =>
    obtain ⟨mode, stored⟩ := h.renews.stored
    refine ⟨now, w, mode, proper, rfl, rfl, ?_⟩
    rw [SortedMap.insert_eq_self found]
    exact isPut_of_get? stored
  | cons next times ih =>
    obtain ⟨proper', others⟩ := List.forall_mem_cons.1 all
    let w₁ : Workspace FiledRegistry := { w with clock := next }
    have here : Recaptures settings w₁.registry name origin t root place config w₁.files index := h
    obtain ⟨fs, mode, updated, put⟩ := here.exists_update found
    have timed := h.renews.timed.insert (origin.isTimed_record name proper') name
    obtain ⟨last, w', mode', proper'', dated, renewed, put'⟩ := ih (w := { w₁ with files := fs })
      (here.put put timed) (SortedMap.get?_insert_self ..) proper' others
    rw [SortedMap.insert_insert] at put'
    refine ⟨last, w', mode', proper'', dated, ?_, put.again put'⟩
    exact Command.renewals_cons_ok_iff.2 ⟨_, _, _, updated, renewed, rfl⟩

end Recaptures

/-! ## What an add has done -/

/-- The project at the root was captured and the template was put, for which the index was
opened at `place` and the directory of the config file was made, which gave `base`. -/
structure Added (settings : Settings) (o : CaptureOptions) (stored : StoredTemplate)
    (root : Place) (w w' : Workspace FiledRegistry) (index : Index) (place config : Place)
    (base : FileSystem) : Prop where
  name : stored.name.text = o.name
  registry : w'.registry = w.registry
  project : stored.record.projectDir = pathOf root
  ignore : stored.record.ignore = o.ignore
  record : stored.record = stored.record.origin.record stored.name (some w.clock)
  short : Text.fits maxPathLength (pathOf root) = true
  captured : Command.capture settings (pathOf root) o.ignore w.files = .ok stored.template
  read : ∃ index, w.registry.readIndex w.files = .ok index w.files
  ready : w.registry.prepare stored.record.location w.files = .ok place base
  kept : Kept w.files base
  new : index.get? stored.name = none
  puts : FiledRegistry.Puts w.registry stored.name stored.record.origin stored.record
    stored.template index place config base w'.files
  noLink : MakesNoLink w.files w'.files

theorem exists_added {o : CaptureOptions} {w w' : Workspace FiledRegistry} {stored : StoredTemplate}
    (there : lookup w.files o.projectDir = .ok (root, .directory mode))
    (h : Command.add settings o w = .ok stored w') :
    ∃ index place config base, Added settings o stored root w w' index place config base := by
  obtain ⟨valid, new, path, fs, found, captured, put, rfl⟩ := Command.add_ok h
  obtain ⟨root', _, looked, short, rfl⟩ := Command.projectPath_ok_iff.1 found
  obtain ⟨rfl, _⟩ : root = root' ∧ _ := by simpa [there] using looked
  obtain ⟨same, index, place, config, base, ready, kept, _, free, puts⟩ :=
    FiledRegistry.exists_puts put
  have read : ∃ index, w.registry.readIndex w.files = .ok index w.files := by
    obtain ⟨_, _, asked⟩ : ∃ b fs, w.registry.contains stored.name w.files = .ok b fs :=
      Action.isOk_answer_iff.1 (by rw [new]; rfl)
    obtain ⟨index, fs, run, _⟩ := bind_ok_iff.1 asked
    exact ⟨index, ((w.registry.asks_readIndex).run_of_answer (Action.answer_of_ok run))⟩
  have noLink : MakesNoLink w.files ((w.registry.put w.clock stored.name
      ⟨pathOf root, o.templateDir.getD settings.templateDir, o.ignore⟩ stored.template).after
      w.files) :=
    FiledRegistry.Call.makesNoLink (.put ..) w.files
  rw [Action.after_of_ok put] at noLink
  have name : stored.name.text = o.name := TemplateName.text_of_ofText valid
  obtain ⟨name', record, t⟩ := stored
  dsimp only at *
  subst same
  exact ⟨index, place, config, base, name, rfl, rfl, rfl, rfl, short, captured, read, ready, kept,
    free, puts, noLink⟩

namespace Added

variable {o : CaptureOptions} {stored : StoredTemplate} {w w' : Workspace FiledRegistry}
  (h : Added settings o stored root w w' index place config base)

include h

theorem isPlainDirectory (plain : IsPlainDirectory w.files root) : IsPlainDirectory w'.files root :=
  ⟨h.puts.spares.dirs root (h.kept.keepsDirectories root plain.there), plain.above, plain.short,
    fun q target below link => plain.noLink q target below (h.noLink q target link)⟩

theorem keepsOwnWays_iff : w.registry.StoreKeepsOwnWays stored.name stored.record.origin w.files
    ↔ FiledRegistry.KeepsOwnWays w.registry base stored.record.location
      (stored.record.origin.configFile stored.name) place config := by
  obtain ⟨_, read⟩ := h.read
  exact FiledRegistry.whenReady_iff read h.ready h.puts.accepts.located

/-- The index is not visible in a project of which all that is visible has stayed as it was. -/
theorem ne_place (apart : config ≠ place) (same : SameVisible ps root w.files w'.files)
    {names : List Name} (some : names ≠ []) (visible : Scan.isVisible ps names = true)
    (timed : Index.IsTimed (index.insert stored.name stored.record)) : names ++ root ≠ place := by
  rintro here
  obtain ⟨_, after⟩ := h.puts.indexed apart
  obtain ⟨content, _, before, parsed⟩ := h.puts.stored
  have found := (same names some visible).symm
  rw [here, after] at found
  have kept := h.kept place _ found
  obtain ⟨rfl, _⟩ : content = Index.render (index.insert stored.name stored.record) ∧ _ := by
    simpa using before.symm.trans kept
  obtain same : index.insert stored.name stored.record = index :=
    Except.ok.inj ((Index.parse_render timed).symm.trans parsed)
  have known : (index.insert stored.name stored.record).get? stored.name = .some stored.record :=
    SortedMap.get?_insert_self ..
  rw [same, h.new] at known
  simp at known

/-- If the add was not in its own way, the template can be captured again. -/
theorem recaptures (proper : w.clock.IsProper) (plain : IsPlainDirectory w.files root)
    (same : settings'.ignore = settings.ignore)
    (keeps : w.registry.StoreKeepsOwnWays stored.name stored.record.origin w.files)
    (visible : ∀ ps, IgnorePatterns.compile (settings.ignore ++ o.ignore) = .ok ps →
      SameVisible ps root w.files w'.files) :
    Recaptures settings' w'.registry stored.name stored.record.origin stored.template root place
      config w'.files (index.insert stored.name stored.record) := by
  obtain ⟨_, _, _, parsed⟩ := h.puts.stored
  have timed : Index.IsTimed (index.insert stored.name stored.record) := by
    refine (Index.isTimed_of_parse parsed).insert ?_ stored.name
    rw [h.record]
    exact stored.record.origin.isTimed_record stored.name proper
  have keeps := h.keepsOwnWays_iff.1 keeps
  obtain ⟨ps, _, compiled, _⟩ := Command.capture_ok_iff.1 h.captured
  have ignore : stored.record.origin.ignore = o.ignore := h.ignore
  refine ⟨?_, h.project, h.isPlainDirectory plain, ?_, fun ps' compiled' names some seen => ?_⟩
  · rw [h.registry]
    exact h.puts.renews timed keeps
  · rw [ignore]
    exact (Command.capture_again_iff plain (h.isPlainDirectory plain) compiled h.captured same).2
      (visible ps compiled)
  · rw [ignore, same] at compiled'
    exact h.ne_place keeps.apart (visible ps' compiled') some seen timed

/-- If the template is given out and can be captured again, the add was not in its own way. -/
theorem of_update {now : Instant} {w₂ : Workspace FiledRegistry} {again : StoredTemplate}
    (plain : IsPlainDirectory w.files root) (same : settings'.ignore = settings.ignore)
    (got : (w.registry.get stored.name).answer w'.files = .ok stored)
    (updated : Command.update settings' (.named stored.name.text) { w' with clock := now }
      = .ok again w₂) (template : again.template = stored.template) :
    w.registry.StoreKeepsOwnWays stored.name stored.record.origin w.files
      ∧ ∀ ps, IgnorePatterns.compile (settings.ignore ++ o.ignore) = .ok ps →
        SameVisible ps root w.files w'.files := by
  obtain ⟨_, previous, path, fs, got', found, captured, replaced, _⟩ :=
    Command.update_named_ok_iff.1 updated
  dsimp only at got' found captured replaced
  rw [h.registry] at got' replaced
  obtain rfl := Except.ok.inj (got.symm.trans got')
  obtain ⟨_, there⟩ := get?_of_isDirectoryAt (h.isPlainDirectory plain).there
  obtain ⟨root', _, looked, _, rfl⟩ := Command.projectPath_ok_iff.1 found
  rw [h.project, lookup_pathOf plain.above there plain.short] at looked
  obtain ⟨rfl, _⟩ : root = root' ∧ _ := by simpa using looked
  constructor
  · have got : (w.registry.get stored.name).answer w'.files
        = .ok ⟨stored.name, stored.record.origin.record stored.name (some w.clock),
          stored.template⟩ := by
      rw [← h.record]
      exact got
    rw [← h.project] at replaced
    exact h.keepsOwnWays_iff.2 (h.puts.keepsOwnWays got replaced)
  · intro ps compiled
    rw [h.ignore, template] at captured
    exact (Command.capture_again_iff plain (h.isPlainDirectory plain) compiled h.captured same).1
      captured

/-- The add was not in the way of what is visible in the project if it was made outside. -/
theorem sameVisible (ps : IgnorePatterns)
    (outside : w.registry.StoresOutside stored.name stored.record.origin root w.files) :
    SameVisible ps root w.files w'.files := by
  intro names some _
  obtain ⟨_, read⟩ := h.read
  obtain ⟨same, apart, apart'⟩ := outside.get?_eq read h.ready h.puts.accepts.located h.kept
    ⟨names, some, rfl⟩
  exact (h.puts.frame _ apart' apart).trans same

end Added

/-- Right after a project without links was added, its template can be captured anew at any
times, one after the other, with the same result but for the time, and with every other
template as before, exactly if the add was not in its own way: its config file has taken the
place neither of the index nor of a link on the way, and the project looks as before. It does
so wherever neither the index nor the config file stands in it and their paths do not lead up. -/
theorem renewals_keep_iff {o : CaptureOptions} {w w' : Workspace FiledRegistry}
    {stored : StoredTemplate} (proper : w.clock.IsProper)
    (there : lookup w.files o.projectDir = .ok (root, .directory mode))
    (noLink : NoLinkBelow w.files root) (same : settings'.ignore = settings.ignore)
    (added : Command.add settings o w = .ok stored w') :
    ((∀ times : List Instant, (∀ now ∈ times, now.IsProper) →
      ∃ w₂, Command.renewals settings' o.name times w' = .ok (times.map stored.dated) w₂
        ∧ FiledRegistry.Stores w.registry stored.name (some stored.record)
          (times.foldl StoredTemplate.dated stored).record stored.template w'.files w₂.files)
      ↔ w.registry.StoreKeepsOwnWays stored.name stored.record.origin w.files
        ∧ ∀ ps, IgnorePatterns.compile (settings.ignore ++ o.ignore) = .ok ps →
          SameVisible ps root w.files w'.files)
    ∧ (w.registry.StoresOutside stored.name stored.record.origin root w.files →
      ∀ ps, SameVisible ps root w.files w'.files) := by
  obtain ⟨index, place, config, base, h⟩ := exists_added there added
  have plain : IsPlainDirectory w.files root :=
    ⟨isDirectoryAt_of_get? (get?_of_lookup there), areTexts_of_lookup there, h.short, noLink⟩
  refine ⟨⟨?_, ?_⟩, fun outside ps => h.sameVisible ps outside⟩
  · intro holds
    -- no time at all says that the template is given out
    obtain ⟨_, none, stores⟩ := holds [] (by simp)
    obtain ⟨_, rfl⟩ := pure_ok_iff.1 none
    obtain ⟨_, once, _⟩ := holds [w.clock] (by simpa using proper)
    rw [← h.name] at once
    obtain ⟨again, _, _, updated, _, result⟩ := Command.renewals_cons_ok_iff.1 once
    obtain ⟨rfl, _⟩ := List.cons.inj result
    exact h.of_update plain same stores.get updated rfl
  · rintro ⟨keeps, visible⟩ times all
    have again := h.recaptures proper plain same keeps visible
    have found : (index.insert stored.name stored.record).get? stored.name
        = some (stored.record.origin.record stored.name (some w.clock)) := by
      rw [← h.record]
      exact SortedMap.get?_insert_self ..
    obtain ⟨last, w₂, _, proper', dated, renewed, put⟩ := again.exists_renewals found proper all
    have stores := again.renews.stores (Command.isCaptured_of_capture h.captured).wellFormed found
      proper' put
    rw [← h.record] at dated renewed stores
    rw [h.registry] at stores
    refine ⟨w₂, h.name ▸ renewed, ?_⟩
    rw [show times.foldl StoredTemplate.dated stored = _ from dated]
    exact stores

/-- Settings with another directory for new templates. -/
def movedSettings : Settings := { homeSettings with templateDir := "/elsewhere".toList }

/-- After the greeting was added it can be captured anew at any times. -/
theorem renewals_keep_iff_greeting :
    ∃ stored w', Command.add homeSettings ⟨FiledRegistry.demoName.text, "/p".toList, none, []⟩
        greetingWorkspace = .ok stored w'
      ∧ ∀ times : List Instant, (∀ now ∈ times, now.IsProper) →
        ∃ w₂, Command.renewals movedSettings FiledRegistry.demoName.text times w'
            = .ok (times.map stored.dated) w₂
          ∧ FiledRegistry.Stores FiledRegistry.homeRegistry stored.name (some stored.record)
            (times.foldl StoredTemplate.dated stored).record stored.template w'.files w₂.files := by
  have new : (FiledRegistry.homeRegistry.contains FiledRegistry.demoName).answer greeting
      = .ok false := by
    decide +kernel
  obtain ⟨record, w, put, keeps, outside⟩ : ∃ record w, (Registry.put FiledRegistry.demoName
        ⟨pathOf greetingRoot, homeSettings.templateDir, []⟩ greetingTemplate
        : Job FiledRegistry Record) greetingWorkspace = .ok record w
      ∧ FiledRegistry.homeRegistry.StoreKeepsOwnWays FiledRegistry.demoName record.origin greeting
      ∧ FiledRegistry.homeRegistry.StoresOutside FiledRegistry.demoName record.origin greetingRoot
        greeting := by
    decide +kernel
  have added : Command.add homeSettings ⟨FiledRegistry.demoName.text, "/p".toList, none, []⟩
      greetingWorkspace = .ok ⟨FiledRegistry.demoName, record, greetingTemplate⟩ w := by
    rw [add_eq (w := greetingWorkspace) new lookup_greeting isProject_greeting.short
      capture_greeting]
    exact bind_ok_iff.2 ⟨record, w, put, rfl⟩
  have ignore : movedSettings.ignore = homeSettings.ignore := rfl
  obtain ⟨keep_iff, visible⟩ := renewals_keep_iff Instant.isProper_epoch lookup_greeting
    isProject_greeting.isPlainDirectory.noLink ignore added
  exact ⟨_, w, added, keep_iff.2 ⟨keeps, fun ps _ => visible outside ps⟩⟩

/-- A project with one file, and beside it a directory and a link to it. -/
def detour : FileSystem :=
  ((((FileSystem.empty.put greetingRoot (.directory 0o755)).put
    (.text "a.txt".toList :: greetingRoot) (.file (.text "x".toList) 0o644)).put
    [.text "d".toList] (.directory 0o755)).put
    [.text "l.json".toList] (.link "d".toList))

/-- The template of the project. -/
def detourTemplate : Template :=
  ⟨[⟨"a.txt".toList, .file, ['.'], 0o644, some "x".toList, []⟩], []⟩

def detourName : TemplateName := ⟨"l".toList, by decide⟩

/-- The origin of the template, whose directory stands beside the project and is named by a path
that goes through the link. -/
def detourOrigin : Origin := ⟨pathOf greetingRoot, "/l.json/..".toList, []⟩

/-- The workspace of the project, in which no registry has been used. -/
def detourWorkspace : Workspace FiledRegistry :=
  ⟨FiledRegistry.homeRegistry, detour, .epoch, .empty⟩

/-- The config file of a template whose directory is named through the link takes the place of
the link, so that the template is found no more and cannot be captured anew. -/
theorem exists_update_refused :
    IsProject detour greetingRoot ∧ ∃ stored w,
      Command.add homeSettings ⟨detourName.text, "/p".toList, some detourOrigin.location, []⟩
        detourWorkspace = .ok stored w
      ∧ SameVisible [] greetingRoot detour w.files
      ∧ ∃ w', Command.update homeSettings (.named detourName.text) w
        = .error (.io .notADirectory) w' := by
  have project : IsProject detour greetingRoot := by decide +kernel
  have there : lookup detour "/p".toList = .ok (greetingRoot, .directory 0o755) := by decide +kernel
  have new : (FiledRegistry.homeRegistry.contains detourName).answer detour = .ok false := by
    decide +kernel
  have captured : Command.capture homeSettings (pathOf greetingRoot) [] detour
      = .ok detourTemplate := by
    have scanned : scan detour [] (pathOf greetingRoot) = .ok detourTemplate.entries := by
      rw [scan_pathOf project, Scan.visits_eq (by decide +kernel)]
      decide +kernel
    exact Command.capture_ok_iff.2 ⟨[], _, rfl, scanned, by decide +kernel⟩
  let record : Record := detourOrigin.record detourName (some .epoch)
  obtain ⟨_, w, put, rfl, same, indexed, lost⟩ : ∃ stored w,
      (Registry.put detourName detourOrigin detourTemplate : Job FiledRegistry Record)
        detourWorkspace = .ok stored w
      ∧ stored = record ∧ SameVisible [] greetingRoot detour w.files
      ∧ textAt w.files FiledRegistry.homeRegistry.indexPath
        = .ok (Index.render (SortedMap.insert .empty detourName record))
      ∧ textAt w.files record.configFile = .error .notADirectory := by
    decide +kernel
  have added : Command.add homeSettings
      ⟨detourName.text, "/p".toList, some detourOrigin.location, []⟩ detourWorkspace
        = .ok ⟨detourName, record, detourTemplate⟩ w := by
    rw [add_eq (w := detourWorkspace) new there project.short captured]
    exact bind_ok_iff.2 ⟨record, w, put, rfl⟩
  have timed : Index.IsTimed (SortedMap.insert .empty detourName record) :=
    (Index.isTimed_of_parse Index.parse_nil).insert
      (detourOrigin.isTimed_record detourName Instant.isProper_epoch) detourName
  have read : FiledRegistry.homeRegistry.readIndex w.files
      = .ok (SortedMap.insert .empty detourName record) w.files := by
    refine FiledRegistry.readIndex_ok_iff.2 ⟨?_, rfl⟩
    rw [indexed]
    exact Index.parse_render timed
  have got := FiledRegistry.get_answer_textAt read (SortedMap.get?_insert_self ..)
  rw [lost] at got
  obtain ⟨_, _, _, _, done⟩ := exists_added there added
  rw [← show w.registry = FiledRegistry.homeRegistry from done.registry] at got
  exact ⟨project, _, w, added, same, w, Command.update_named_error got⟩

end Scaffold
