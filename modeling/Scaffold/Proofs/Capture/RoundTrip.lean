import Scaffold.Command.Basic
import Scaffold.Proofs.Capture.Rendered
import Scaffold.Proofs.Job
import Scaffold.Proofs.Registry.Mirror
import Scaffold.Proofs.Registry.Renewal
import Scaffold.Proofs.Value.Assigned

/-!
# Capturing a project and writing it again

A project is added as a new template and the template is written into a new target, where
every argument gets the token with which the project spells it. Then the tree below the
target is the one below the root of the project: the same names and kinds, contents and
modes, and nothing else.
-/

namespace Scaffold

open FileSystem FileAction Placeholder

variable {fs fs' fs₁ : FileSystem} {root dest : Place} {target projectDir : Path} {mode : Mode}
  {name : TemplateName} {index : Index} {now : Instant} {origin : Origin} {t : Template}
  {entries : List Entry} {c : Contract} {assignments : List Text} {settings : Settings}

namespace FiledRegistry

variable {r : FiledRegistry}

/-! ## Storing and getting -/

/-- Nothing is in the way of a config file for this name: the index can be opened, the
location can be made if it is missing, and a file can be staged there and moved to a place
at which no directory stands, and which is not that of the index, nor that of a link on the
way to the index or to the config file. -/
def HasRoom (r : FiledRegistry) (fs : FileSystem) (name : TemplateName) (location : Path) : Prop :=
  ∃ place base fs₁ config, r.openIndex fs = .ok place base
    ∧ createDirectories location base = .ok () fs₁
    ∧ Accepts fs₁ location (Path.join location name.configName) config
    ∧ config ≠ place
    ∧ config ∉ linksOn fs₁ .entry (Path.join location name.configName)
    ∧ config ∉ linksOn fs₁ .node r.indexPath

/-- A registry that does not have a name, and whose index opens alike, is opened without the
name. -/
theorem exists_opens_of_new (new : (r.contains name).answer fs = .ok false)
    (alike : r.OpensAlike fs) (opened : r.openIndex fs = .ok place base) :
    ∃ index, r.Opens fs place index base ∧ index.get? name = none := by
  have same := (Abandoned.opened opened (.refl base)).sameAnswers_iff.2 alike
  rw [← same.contains, contains_answer_eq, readIndex_answer] at new
  obtain ⟨index, read, free⟩ : ∃ index, indexOf (textAt base r.indexPath) = .ok index
      ∧ index.get? name = none := by
    cases read : indexOf (textAt base r.indexPath) with
    | error e => simp [read, Except.map] at new
    | ok index => exact ⟨index, rfl, by simpa [read, Except.map, SortedMap.contains] using new⟩
  obtain ⟨_, led, ⟨x, there⟩, _⟩ := openIndex_ok opened
  simp only [textAt, led, there] at read
  -- what is opened and read as an index is a text
  obtain ⟨content, mode, rfl⟩ : ∃ content mode, x = .file (.text content) mode := by
    rcases x with ⟨⟨content⟩ | _, mode⟩ | _ | _ <;> simp_all [readNode, indexOf]
  exact ⟨index, ⟨opened, content, mode, there, read⟩, free⟩

/-- A config file that will have a place of its own finds room. -/
theorem IsSettled.hasRoom {base : FileSystem} {place : Place}
    (opened : r.openIndex fs = .ok place base) (settled : IsSettled base origin name) :
    r.HasRoom fs name origin.location := by
  have start : startOf base.workDir origin.location = [] :=
    startOf_of_isAbsolute settled.absolute _
  obtain ⟨fs₁, made, making⟩ := createDirectories_of_clear
    (fun a => settled.named.of_mem_ancestors) (start ▸ isDirectoryAt_root base)
    (start ▸ settled.clear)
  rw [start] at making
  have there : fs₁.isDirectoryAt (namedPlace origin.location) = true :=
    making.paved settled.clear _ List.prefix_rfl
  have free : fs₁.get? (namedPlace (origin.configFile name)) = none := by
    rw [making.kept, settled.free]
    intro _ ns part same
    -- the config file is deeper than every directory on the way to it
    have deeper := congrArg List.length same
    have shorter := (placeOf_suffix [] part).length_le
    rw [Origin.namedPlace_configFile, List.length_cons, namedPlace] at deeper
    omega
  have accepts := settled.accepts there (by simp [isDirectoryAt, free])
  have grown : Grown base fs₁ := after_ok made ▸ grown_createDirectories _ base
  have reaches := (openIndex_reaches opened).1.grown grown
  have unmet {goal : Goal} {path : Path} {q : Place} (located : locate fs₁ goal path = .ok q) :
      namedPlace (origin.configFile name) ∉ linksOn fs₁ goal path := by
    intro met
    obtain ⟨target, isLink⟩ := isLink_of_mem_linksOn located met
    simp [free] at isLink
  refine ⟨place, base, fs₁, _, opened, made, accepts, ?_, unmet accepts.located,
    unmet (locate_node_of_file reaches.located)⟩
  obtain ⟨_, _, ⟨_, found⟩, _⟩ := openIndex_ok opened
  rintro rfl
  simp [grown.kept _ _ found] at free

/-- A new template that finds room is stored, and it is what the registry gives out. -/
theorem HasRoom.exists_put (room : r.HasRoom fs name origin.location)
    (new : (r.contains name).answer fs = .ok false) (alike : r.OpensAlike fs)
    (proper : now.IsProper) (wf : t.WellFormed) :
    ∃ fs', r.put now name origin t fs = .ok (origin.record name (some now)) fs'
      ∧ (r.get name).answer fs' = .ok ⟨name, origin.record name (some now), t⟩ := by
  obtain ⟨place, base, fs₁, config, opened, made, accepts, apart, own, route⟩ := room
  obtain ⟨index, opens, free⟩ := exists_opens_of_new new alike opened
  obtain ⟨_, fs', _, run, _⟩ := opens.put_ok now t free made accepts apart
  refine ⟨fs', run, ?_⟩
  obtain ⟨_, index, place', config', fs₂, ready, _, _, _, puts⟩ := exists_puts run
  obtain ⟨rfl, rfl⟩ : place = place' ∧ fs₁ = fs₂ := by
    simpa [prepare_of_ok opened made] using ready
  obtain rfl : config' = config :=
    Except.ok.inj (puts.accepts.located.symm.trans accepts.located)
  obtain ⟨_, _, _, parsed⟩ := puts.stored
  have timed := (Index.isTimed_of_parse parsed).insert (origin.isTimed_record name proper) name
  exact puts.get rfl wf timed apart route own

end FiledRegistry

/-! ## Capturing -/

/-- A project whose tokens are written alike is captured: its entries show it, and its
contract has the arguments that occur in it. -/
theorem exists_capture (noPatterns : settings.ignore = []) (project : IsProject fs root)
    (alike : SpellsAlike fs root) :
    ∃ t, Command.capture settings (pathOf root) [] fs = .ok t ∧ Shows fs root t.entries
      ∧ (∀ a, a ∈ t.arguments ↔ Occurs fs root a) ∧ t.WellFormed := by
  obtain ⟨entries, scanned, shows⟩ := exists_scan project
  have spellAlike : SpellAlike entries := fun e mem e' mem' a b spells spells' =>
    alike a b (shows.occurs_iff.2 ⟨e, mem, spells⟩) (shows.occurs_iff.2 ⟨e', mem', spells'⟩)
  obtain ⟨contract, extracted, mem_iff⟩ := Contract.extract_of_spellAlike spellAlike
  have compiled : IgnorePatterns.compile (settings.ignore ++ []) = .ok [] := by
    rw [noPatterns]
    rfl
  refine ⟨⟨entries.map Entry.withArgumentNames, contract⟩, ?_, shows.withArgumentNames,
    fun a => (mem_iff a).trans shows.occurs_iff.symm, fun e mem => ?_⟩
  · simp only [Command.capture, compiled, scanned, Template.ofEntries, extracted]
  · obtain ⟨_, _, _, _, entry⟩ := shows.withArgumentNames.depicts e mem
    exact entry.wellFormed

/-! ## Writing again -/

/-- The assignments give each argument of the contract, and nothing else, the token with
which the project spells it. -/
structure AssignsTokens (fs : FileSystem) (root : Place) (c : Contract) (assignments : List Text) :
    Prop where
  all : ∀ a ∈ c, ∃ b, Occurs fs root b ∧ b.name = a.name ∧ assignment b ∈ assignments
  only : ∀ text ∈ assignments, ∃ a ∈ c, ∃ b, Occurs fs root b ∧ b.name = a.name
    ∧ text = assignment b

instance : Decidable (AssignsTokens fs root c assignments) :=
  decidable_of_iff ((∀ a ∈ c, ∃ b ∈ occurring fs root, b.name = a.name
        ∧ ∃ text ∈ assignments, text = assignment b)
      ∧ ∀ text ∈ assignments, ∃ a ∈ c, ∃ b ∈ occurring fs root, b.name = a.name
        ∧ text = assignment b)
    ⟨fun ⟨all, only⟩ => ⟨by simpa only [mem_occurring_iff, exists_eq_right] using all,
        by simpa only [mem_occurring_iff] using only⟩,
      fun h => ⟨by simpa only [mem_occurring_iff, exists_eq_right] using h.all,
        by simpa only [mem_occurring_iff] using h.only⟩⟩

/-- Nothing is found under the path of the target, and when its directories are made, it is
a directory in which nothing stands. -/
def CanBeNew (fs : FileSystem) (target : Path) (dest : Place) : Prop :=
  lookup fs target = .error .notFound
    ∧ ∃ fs₁, createDirectories target fs = .ok () fs₁ ∧ Instantiation.Ready fs₁ target dest

/-- An absent target without `..` that is not empty can be new if it can be made at all. -/
theorem canBeNew_of_plain (absent : lookup fs target = .error .notFound) (some : target ≠ [])
    (noUp : ['.', '.'] ∉ Path.segments target)
    (made : createDirectories target fs = .ok () fs₁) : ∃ dest, CanBeNew fs target dest := by
  have checked : Instantiation.checkTarget target fs = .ok () fs := by
    simp only [Instantiation.checkTarget, absent]
  have allowed := refusal?_of_checkTarget checked some
  obtain ⟨dest, leads⟩ := leads_target made some
  rcases createDirectories_fresh noUp made leads with rfl | ⟨_, empty⟩
  · obtain ⟨mode, found⟩ := get?_of_isDirectoryAt leads.there
    simp [leads.lookup_eq allowed found] at absent
  · exact ⟨dest, absent, fs₁, made, allowed, leads, fun q => get?_below_of_childNames empty⟩

theorem AssignsTokens.exists_values (h : AssignsTokens fs root c assignments)
    (contract : ∀ a, a ∈ c ↔ Occurs fs root a) (alike : SpellsAlike fs root) :
    ∃ values resolved, Values.parseAssignments assignments = .ok values
      ∧ c.resolve values = .ok resolved
      ∧ Restores (Instantiation.lookupValues values resolved) fs root := by
  have same : ∀ a b, Occurs fs root a → Occurs fs root b → a.name = b.name → a = b :=
    fun a b here there name => eq_of_token_eq name (alike a b here there name)
  have spellable : ∀ a ∈ c, IsSpellable a := by
    intro a mem
    obtain ⟨_, _, _, _, ⟨_, _, _, spelled⟩ | ⟨_, _, _, spelled⟩⟩ := (contract a).1 mem
    · exact isSpellable_of_mem_arguments spelled
    · exact isSpellable_of_mem_arguments spelled
  have agree : Argument.Agree c := fun a mem b mem' =>
    same a b ((contract a).1 mem) ((contract b).1 mem')
  have only : ∀ text ∈ assignments, ∃ a ∈ c, text = assignment a := by
    intro text mem
    obtain ⟨_, _, b, occurs, _, eq⟩ := h.only text mem
    exact ⟨b, (contract b).2 occurs, eq⟩
  obtain ⟨values, parsed, given⟩ := Values.parseAssignments_of_agree spellable agree only
  have known : ∀ a ∈ c, values.get? a.name = some (token a) := by
    intro a mem
    obtain ⟨b, occurs, name, assigned⟩ := h.all a mem
    obtain rfl := same b a occurs ((contract a).1 mem) name
    exact given b mem assigned
  obtain ⟨resolved, done, kept⟩ := Contract.resolve_of_values fun a mem => ⟨_, known a mem⟩
  refine ⟨values, resolved, parsed, done, fun a occurs => ?_⟩
  rw [kept, known a ((contract a).2 occurs)]

/-! ## Commands -/

section

variable {w : Workspace FiledRegistry} {record : Record}

/-- A directory is captured under the path of its place. -/
theorem Command.projectPath_ok_iff {path : Path} : Command.projectPath projectDir fs = .ok path
    ↔ ∃ root mode, lookup fs projectDir = .ok (root, .directory mode)
      ∧ Text.fits maxPathLength (pathOf root) = true ∧ path = pathOf root := by
  constructor
  · intro h
    unfold Command.projectPath FileSystem.isDirectory FileSystem.canonical at h
    cases looked : lookup fs projectDir with
    | error why => simp [looked] at h
    | ok found =>
      obtain ⟨root, x⟩ := found
      simp only [looked] at h
      split at h
      · rename_i dir
        obtain ⟨mode, rfl⟩ := Node.isDirectory_iff.1 dir
        split at h
        · rename_i short
          exact ⟨root, mode, rfl, short, (Except.ok.inj h).symm⟩
        · simp [Except.mapError] at h
      · simp at h
  · rintro ⟨root, mode, looked, short, rfl⟩
    simp only [Command.projectPath, FileSystem.isDirectory, FileSystem.canonical, looked, short,
      Node.isDirectory, if_true]
    rfl

/-- What is captured from a directory is put under a new name, and that is all. -/
theorem add_eq {templateDir : Option Path} {ignore : List Text}
    (new : (w.registry.contains name).answer w.files = .ok false)
    (there : lookup w.files projectDir = .ok (root, .directory mode))
    (short : Text.fits maxPathLength (pathOf root) = true)
    (captured : Command.capture settings (pathOf root) ignore w.files = .ok t) :
    Command.add settings ⟨name.text, projectDir, templateDir, ignore⟩ w
      = (Registry.put name ⟨pathOf root, templateDir.getD settings.templateDir, ignore⟩ t >>=
        fun record => pure ⟨name, record, t⟩ : Job FiledRegistry StoredTemplate) w := by
  have found : Command.projectPath projectDir w.files = .ok (pathOf root) :=
    Command.projectPath_ok_iff.2 ⟨root, mode, there, short, rfl⟩
  have asked : (Registry.contains name : Job FiledRegistry Bool) w = .ok false w :=
    (Job.onFiles_ok_iff_of_asks (w.registry.asks_contains name)).2 ⟨new, rfl⟩
  unfold Command.add
  rw [bind_of_ok (Job.check_ok_iff.2 ⟨TemplateName.ofText_text name, rfl⟩), bind_of_ok asked]
  dsimp only
  rw [if_neg Bool.false_ne_true, bind_of_ok (Job.query_ok_iff.2 ⟨found, rfl⟩),
    bind_of_ok (Job.query_ok_iff.2 ⟨captured, rfl⟩)]

/-- A template that the registry gives out is written with the values that are assigned. -/
theorem instantiate_of_get {prompt : FileSystem → Prompt} {values : Values} {report : Report}
    (got : (w.registry.get name).answer w.files = .ok ⟨name, record, t⟩)
    (parsed : Values.parseAssignments assignments = .ok values)
    (checked : Instantiation.checkTarget target w.files = .ok () w.files)
    (written : instantiate t target values w.files = .ok report fs') :
    Command.instantiate prompt ⟨name.text, target, assignments, false⟩ w
      = .ok report { w with files := fs' } := by
  have asked : (Registry.get name : Job FiledRegistry StoredTemplate) w
      = .ok ⟨name, record, t⟩ w :=
    (Job.onFiles_ok_iff_of_asks (w.registry.asks_get name)).2 ⟨got, rfl⟩
  unfold Command.instantiate
  rw [bind_of_ok (Job.check_ok_iff.2 ⟨TemplateName.ofText_text name, rfl⟩), bind_of_ok asked,
    bind_of_ok (Job.onFiles_ok_iff.2 ⟨_, checked, rfl⟩),
    bind_of_ok (Job.check_ok_iff.2 ⟨parsed, rfl⟩), bind_of_ok (get_ok_iff.2 ⟨rfl, rfl⟩)]
  dsimp only
  rw [if_neg (by simp)]
  exact Job.onFiles_ok_iff.2 ⟨fs', written, rfl⟩

end

/-- Added as a new template and written into a new target, each argument with the token that
spells it, a project is the same tree again. -/
theorem instantiate_add {w : Workspace FiledRegistry} (proper : w.clock.IsProper)
    (opensAlike : w.registry.OpensAlike w.files)
    (new : (w.registry.contains name).answer w.files = .ok false)
    (room : w.registry.HasRoom w.files name settings.templateDir)
    (noPatterns : settings.ignore = [])
    (there : lookup w.files projectDir = .ok (root, .directory mode))
    (project : IsProject w.files root) (alike : SpellsAlike w.files root) :
    ∃ stored w₁, Command.add settings ⟨name.text, projectDir, none, []⟩ w = .ok stored w₁
      ∧ ∀ target dest assignments prompt, CanBeNew w₁.files target dest →
        FitsUnder w.files root target → AssignsTokens w.files root stored.template.arguments assignments →
        ∃ report w₂,
          Command.instantiate prompt ⟨name.text, target, assignments, false⟩ w₁ = .ok report w₂
          ∧ locate w₂.files .node target = .ok dest
          ∧ ∀ names, names ≠ [] →
            w₂.files.get? (names ++ dest) = w.files.get? (names ++ root) := by
  obtain ⟨t, captured, shows, contract, wf⟩ := exists_capture noPatterns project alike
  let origin : Origin := ⟨pathOf root, settings.templateDir, []⟩
  have roomy : w.registry.HasRoom w.files name origin.location := room
  obtain ⟨fs₂, put, got⟩ := roomy.exists_put new opensAlike proper wf
  let record : Record := origin.record name (some w.clock)
  let w₁ : Workspace FiledRegistry := { w with files := fs₂ }
  have stored : (Registry.put name origin t : Job FiledRegistry Record) w = .ok record w₁ :=
    Job.onFiles_ok_iff.2 ⟨fs₂, put, rfl⟩
  have added : Command.add settings ⟨name.text, projectDir, none, []⟩ w
      = .ok ⟨name, record, t⟩ w₁ := by
    rw [add_eq new there project.short captured]
    exact bind_ok_iff.2 ⟨record, w₁, stored, rfl⟩
  refine ⟨⟨name, record, t⟩, w₁, added, ?_⟩
  intro target dest assignments prompt free short assigns
  obtain ⟨absent, fs₁, made, ready⟩ := free
  obtain ⟨values, resolved, parsed, done, restores⟩ := assigns.exists_values contract alike
  have checked : Instantiation.checkTarget target w₁.files = .ok () w₁.files := by
    simp only [Instantiation.checkTarget, absent]
  have fits := shows.fits project restores short
  obtain ⟨report, fs', written, located, holds⟩ :=
    Instantiation.instantiate_ready checked made ready done fits
  exact ⟨report, { w₁ with files := fs' }, instantiate_of_get got parsed checked written, located,
    fun names some => shows.get?_of_holds project restores holds some⟩

/-- An argument with a default value. -/
def whoArgument : Argument := ⟨"who".toList, some "you".toList⟩

def greetingRoot : Place := [.text "p".toList]

/-- A project with one file in a directory, which gets its mode last. The name and the content
of the file spell the argument. -/
def greeting : FileSystem :=
  let source : Place := .text "src".toList :: greetingRoot
  (((FileSystem.empty.put greetingRoot (.directory 0o755)).put source (.directory 0o755)).put
      (.text (token whoArgument) :: source)
      (.file (.text ("Hello, ".toList ++ token whoArgument)) 0o640)).put source (.directory 0o700)

/-- The entries that describe the project. -/
def greetingEntries : List Entry :=
  [⟨"src".toList, .directory, ".".toList, 0o700, none, []⟩,
    ⟨token whoArgument, .file, "src".toList, 0o640, some ("Hello, ".toList ++ token whoArgument),
      []⟩]

/-- The template of the project. -/
def greetingTemplate : Template := ⟨greetingEntries.map Entry.withArgumentNames, [whoArgument]⟩

/-- Settings without patterns. -/
def homeSettings : Settings := ⟨"/home".toList, "/home/templates".toList, "vim".toList, []⟩

/-- The workspace of the project, in which no registry has been used. -/
def greetingWorkspace : Workspace FiledRegistry :=
  ⟨FiledRegistry.homeRegistry, greeting, .epoch, .empty⟩

theorem lookup_greeting : lookup greeting "/p".toList = .ok (greetingRoot, .directory 0o755) := by
  decide +kernel

theorem isProject_greeting : IsProject greeting greetingRoot := by decide +kernel

theorem spellsAlike_greeting : SpellsAlike greeting greetingRoot := by decide +kernel

theorem capture_greeting :
    Command.capture homeSettings (pathOf greetingRoot) [] greeting = .ok greetingTemplate := by
  have scanned : scan greeting [] (pathOf greetingRoot) = .ok greetingEntries := by
    rw [scan_pathOf isProject_greeting, Scan.visits_eq (by decide +kernel)]
    decide +kernel
  have compiled : IgnorePatterns.compile (homeSettings.ignore ++ []) = .ok [] := rfl
  simp only [Command.capture, compiled, scanned]
  decide +kernel

theorem isFresh_greeting : FiledRegistry.homeRegistry.IsFresh greeting :=
  FiledRegistry.isFresh_of_clear (by decide) (by decide) (by decide +kernel)

/-- A template can be stored beside the project. -/
theorem hasRoom_greeting : FiledRegistry.homeRegistry.HasRoom greeting FiledRegistry.demoName
    homeSettings.templateDir := by
  let origin : Origin := ⟨[], homeSettings.templateDir, []⟩
  obtain ⟨place, base, opened, settled⟩ : ∃ place base,
      FiledRegistry.homeRegistry.openIndex greeting = .ok place base
      ∧ FiledRegistry.IsSettled base origin FiledRegistry.demoName := by
    decide +kernel
  exact settled.hasRoom opened

theorem instantiate_add_greeting :
    ∃ stored w₁ report w₂ dest,
      Command.add homeSettings ⟨FiledRegistry.demoName.text, "/p".toList, none, []⟩
        greetingWorkspace = .ok stored w₁
      ∧ Command.instantiate (fun _ => .scripted [] [])
        ⟨FiledRegistry.demoName.text, "/out".toList, [assignment whoArgument], false⟩ w₁
        = .ok report w₂
      ∧ locate w₂.files .node "/out".toList = .ok dest
      ∧ ∀ names, names ≠ [] →
        w₂.files.get? (names ++ dest) = greeting.get? (names ++ greetingRoot) := by
  have new : (FiledRegistry.homeRegistry.contains FiledRegistry.demoName).answer greeting
      = .ok false := by
    decide +kernel
  have straight : FiledRegistry.IsStraight FiledRegistry.homeRegistry.indexPath :=
    FiledRegistry.isStraight_registryPath homeSettings (by decide)
  obtain ⟨stored, w₁, added, again⟩ := instantiate_add (w := greetingWorkspace)
    Instant.isProper_epoch (FiledRegistry.opensAlike_of_isStraight straight greeting) new
    hasRoom_greeting rfl lookup_greeting isProject_greeting spellsAlike_greeting
  obtain ⟨record, w, put, absent, _, fs₁, made⟩ : ∃ record w, (Registry.put FiledRegistry.demoName
        ⟨pathOf greetingRoot, homeSettings.templateDir, []⟩ greetingTemplate
        : Job FiledRegistry Record) greetingWorkspace = .ok record w
      ∧ lookup w.files "/out".toList = .error .notFound
      ∧ ∃ a fs₁, createDirectories "/out".toList w.files = .ok a fs₁ := by
    decide +kernel
  have steps := (add_eq (w := greetingWorkspace) new lookup_greeting isProject_greeting.short
    capture_greeting).symm.trans added
  rw [Option.getD_none, bind_of_ok put] at steps
  obtain ⟨rfl, rfl⟩ := pure_ok_iff.1 steps
  obtain ⟨dest, free⟩ := canBeNew_of_plain absent (by decide) (by decide) made
  have assigns : AssignsTokens greeting greetingRoot greetingTemplate.arguments
      [assignment whoArgument] := by
    decide +kernel
  obtain ⟨report, w₂, written, located, tree⟩ := again "/out".toList dest
    [assignment whoArgument] (fun _ => .scripted [] []) free (by decide +kernel) assigns
  exact ⟨_, _, report, w₂, dest, added, written, located, tree⟩

/-- Under a name that is too long for a config file the project cannot be added. -/
theorem exists_add_refused :
    FiledRegistry.homeRegistry.Reached greeting
      ∧ (FiledRegistry.homeRegistry.contains FiledRegistry.longName).answer greeting = .ok false
      ∧ homeSettings.ignore = []
      ∧ lookup greeting "/p".toList = .ok (greetingRoot, .directory 0o755)
      ∧ IsProject greeting greetingRoot ∧ SpellsAlike greeting greetingRoot
      ∧ ∃ w, Command.add homeSettings ⟨FiledRegistry.longName.text, "/p".toList, none, []⟩
        greetingWorkspace = .error (.io .invalidFilename) w := by
  have new : (FiledRegistry.homeRegistry.contains FiledRegistry.longName).answer greeting
      = .ok false := by
    decide +kernel
  refine ⟨.fresh isFresh_greeting, new, rfl, lookup_greeting, isProject_greeting,
    spellsAlike_greeting, ?_⟩
  obtain ⟨e, w, refused, rfl⟩ : ∃ e w, (Registry.put FiledRegistry.longName
        ⟨pathOf greetingRoot, homeSettings.templateDir, []⟩ greetingTemplate
        : Job FiledRegistry Record) greetingWorkspace = .error e w ∧ e = .io .invalidFilename := by
    decide +kernel
  rw [add_eq (w := greetingWorkspace) new lookup_greeting isProject_greeting.short capture_greeting]
  exact ⟨w, bind_of_error refused⟩

end Scaffold
