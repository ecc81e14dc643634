import Scaffold.Proofs.Action
import Scaffold.Proofs.FileSystem.Names
import Scaffold.Proofs.FileSystem.Spares
import Scaffold.Proofs.Registry.Index
import Scaffold.Registry.Filed

/-!
# What a registry in files answers

A registry is in order when its index file can be reached and the paths of all config
files lead to places of their own, whether or not a file stands there. As long as it is,
what it answers is decided by the index and by what stands at these places, and every
operation finds the index that the last one has written.
-/

namespace Scaffold

open FileSystem FileAction

variable {fs fs' fs₁ fs₂ : FileSystem} {place q config : Place} {index : Index}
  {name m : TemplateName} {record : Record} {content : Text} {α : Type}

/-! ## Config files -/

namespace TemplateName

/-- The name of the config file of a template. -/
def configName (name : TemplateName) : Text := name.text ++ ".json".toList

theorem configName_ne (other : m ≠ name) : m.configName ≠ name.configName := by
  intro same
  exact other (TextKey.text_injective m name (List.append_cancel_right same))

private theorem plain_of_mem_configName {c : Char} (mem : c ∈ name.configName) :
    c.isAlphanum = true ∨ c = '_' ∨ c = '.' := by
  obtain ⟨text, valid⟩ := name
  rcases List.mem_append.1 mem with mem | mem
  · cases text with
    | nil => simp at mem
    | cons first rest =>
      simp only [isTemplateName, Bool.and_eq_true, Bool.or_eq_true, List.all_eq_true,
        decide_eq_true_eq] at valid
      rcases List.mem_cons.1 mem with rfl | mem
      · rcases valid.1 with letter | underscore
        · exact .inl (by simp [Char.isAlphanum, letter])
        · exact .inr (.inl underscore)
      · exact (valid.2 c mem).imp_right .inl
  · have fixed : ".json".toList.all (fun c => c.isAlphanum || c = '_' || c = '.') := by decide
    simpa [or_assoc] using List.all_eq_true.1 fixed c mem

theorem isWord_configName (name : TemplateName) : Path.IsWord name.configName :=
  ⟨by simp [configName], fun slash => absurd (plain_of_mem_configName slash) (by decide)⟩

theorem configName_noNul (name : TemplateName) : '\x00' ∉ name.configName :=
  fun nul => absurd (plain_of_mem_configName nul) (by decide)

theorem configName_notIdle (name : TemplateName) : Path.isIdle name.configName = false := by
  have long : 5 ≤ name.configName.length := by simp [configName]
  have nonempty : name.configName ≠ [] := fun none => by simp [none] at long
  have noDot : name.configName ≠ ['.'] := fun dot => by simp [dot] at long
  simp [Path.isIdle, nonempty, noDot]

theorem configName_notUp (name : TemplateName) : name.configName ≠ ['.', '.'] := by
  have long : 5 ≤ name.configName.length := by simp [configName]
  intro up
  simp [up] at long

end TemplateName

/-- The record keeps its config file in its location, under the name of the template. -/
def Record.IsOf (name : TemplateName) (record : Record) : Prop :=
  record.configFile = Path.join record.location name.configName

theorem Origin.isOf_record (origin : Origin) (name : TemplateName) (time : Option Instant) :
    (origin.record name time).IsOf name := rfl

theorem Origin.isTimed_record (origin : Origin) (name : TemplateName) {now : Instant}
    (proper : now.IsProper) : (origin.record name (some now)).IsTimed := by
  intro i known
  obtain rfl := Option.some.inj known
  exact proper

/-- A config file stands under the name of its template. -/
theorem Record.IsOf.exists_place (h : record.IsOf name)
    (located : locate fs .entry record.configFile = .ok config) :
    ∃ dir, config = .text name.configName :: dir := by
  obtain ⟨front, segs, _⟩ := Path.segments_join record.location name.isWord_configName
  have resolves := resolves_of_locate located
  rw [h, segs] at resolves
  exact resolves.ends_in_name rfl name.configName_notIdle name.configName_notUp

theorem Record.IsOf.getLast?_ne (h : record.IsOf name) :
    (Path.segments record.configFile).getLast? ≠ some [] := by
  obtain ⟨front, segs, _⟩ := Path.segments_join record.location name.isWord_configName
  rw [h, segs, List.getLast?_concat]
  simpa using name.isWord_configName.1

theorem Record.IsOf.place_ne {other : Record} (h : record.IsOf name) (h' : other.IsOf m)
    (differ : m ≠ name) (located : locate fs .entry record.configFile = .ok config)
    (located' : locate fs₁ .entry other.configFile = .ok q) : q ≠ config := by
  obtain ⟨dir, rfl⟩ := h.exists_place located
  obtain ⟨dir', rfl⟩ := h'.exists_place located'
  intro same
  exact TemplateName.configName_ne differ (Octets.text.inj (List.cons.inj same).1)

theorem Record.IsOf.locateEntry_eq (h : record.IsOf name) (fs : FileSystem) :
    locateEntry fs record.configFile = locate fs .entry record.configFile :=
  FileSystem.locateEntry_eq h.getLast?_ne fs

/-- The answer for a record with this node at the place of its config file. -/
def configAnswer (name : TemplateName) (record : Record) (node : Option Node) :
    Except Error Template :=
  match readNode node with
  | .error .notFound => .error (.configMissing record.configFile name.text)
  | .error why => .error (.io why)
  | .ok content => Template.parse content

@[simp] theorem configAnswer_text (mode : Mode) :
    configAnswer name record (some (.file (.text content) mode)) = Template.parse content := rfl

/-- What stands at its place does not let a config file look blocked on the way. -/
theorem configAnswer_ne (name : TemplateName) (record : Record) (node : Option Node) :
    configAnswer name record node ≠ .error (.io .notADirectory) := by
  rcases node with _ | ⟨⟨⟩ | ⟨⟩, _⟩ | _ | _
  · simp [configAnswer, readNode]
  · exact Template.parse_ne_io _ _
  · simp [configAnswer, readNode]
  · simp [configAnswer, readNode]
  · simp [configAnswer, readNode]

namespace FiledRegistry

variable {r : FiledRegistry}

/-! ## A registry in order -/

/-- No file stands or can be reached under the path of the index, whatever directories are
made. -/
def IsFresh (r : FiledRegistry) (fs : FileSystem) : Prop :=
  ∀ fs' place content mode, Grown fs fs' →
    lookup fs' r.indexPath ≠ .ok (place, .file content mode)

/-- The index file is at this place, and the config files of all records have others. -/
structure Indexed (r : FiledRegistry) (fs : FileSystem) (place : Place) (index : Index) : Prop where
  reaches : Reaches fs .node r.indexPath place
  stored : ∃ content mode, fs.get? place = some (.file (.text content) mode)
    ∧ Index.parse content = .ok index
  timed : index.IsTimed
  isOf : ∀ name record, index.get? name = some record → record.IsOf name
  configs : ∀ name record, index.get? name = some record →
    ∃ q, Reaches fs .entry record.configFile q ∧ q ≠ place

/-- The registry has not been used yet or is in order with this index. -/
inductive Sound (r : FiledRegistry) (fs : FileSystem) : Index → Prop
  | fresh (free : r.IsFresh fs) : Sound r fs .empty
  | indexed {index : Index} {place : Place} (h : r.Indexed fs place index) : Sound r fs index

/-- The index cannot be read, whatever directories are made. -/
def IsLost (r : FiledRegistry) (fs : FileSystem) : Prop :=
  ∀ fs', Grown fs fs' → ∃ e, r.readIndex fs' = .error e fs'

/-- Where no file and no link stands on the way to it, there is no index. -/
theorem isFresh_of_clear (named : Named r.indexPath)
    (there : fs.isDirectoryAt (startOf fs.workDir r.indexPath) = true)
    (clear : Clear fs (startOf fs.workDir r.indexPath) (Path.steps r.indexPath)) :
    r.IsFresh fs := by
  intro fs' place content mode grown looked
  have there' := grown.kept.keepsDirectories _ there
  have clear' := clear.grown grown
  rw [← grown.workDir] at there' clear'
  rcases clear'.lookup_cases named there' with ⟨mode', directory⟩ | missing
  · simp [directory] at looked
  · simp [missing] at looked

theorem Indexed.config_ne (h : r.Indexed fs place index) (found : index.get? name = some record)
    (located : locate fs .entry record.configFile = .ok config) : config ≠ place := by
  obtain ⟨q, reaches, apart⟩ := h.configs name record found
  rwa [← Except.ok.inj (located.symm.trans reaches.located)] at apart

theorem Indexed.reaches_config (h : r.Indexed fs place index)
    (found : index.get? name = some record)
    (located : locate fs .entry record.configFile = .ok config) :
    Reaches fs .entry record.configFile config := by
  obtain ⟨q, reaches, _⟩ := h.configs name record found
  rwa [← Except.ok.inj (located.symm.trans reaches.located)] at reaches

/-- New directories keep a registry in order. -/
theorem Indexed.grown (h : r.Indexed fs place index) (grown : Grown fs fs') :
    r.Indexed fs' place index := by
  obtain ⟨content, mode, found, parsed⟩ := h.stored
  refine ⟨h.reaches.grown grown, ⟨content, mode, grown.kept place _ found, parsed⟩, h.timed,
    h.isOf, fun name record found => ?_⟩
  obtain ⟨q, reaches, apart⟩ := h.configs name record found
  exact ⟨q, reaches.grown grown, apart⟩

theorem IsFresh.grown (h : r.IsFresh fs) (grown : Grown fs fs') : r.IsFresh fs' :=
  fun fs₂ place content mode more => h fs₂ place content mode (grown.trans more)

theorem Sound.grown (h : r.Sound fs index) (grown : Grown fs fs') : r.Sound fs' index := by
  cases h with
  | fresh free => exact .fresh (free.grown grown)
  | indexed order => exact .indexed (order.grown grown)

theorem IsLost.grown (h : r.IsLost fs) (grown : Grown fs fs') : r.IsLost fs' :=
  fun fs₁ more => h fs₁ (grown.trans more)

/-! ## Answers -/

theorem readIndex_of_readText (h : readText r.indexPath fs = .ok content fs)
    (parsed : Index.parse content = .ok index) : r.readIndex fs = .ok index fs := by
  simp only [readIndex, h, parsed, Action.ofExcept]

theorem readIndex_of_parse_error {e : Error} (h : readText r.indexPath fs = .ok content fs)
    (refused : Index.parse content = .error e) : r.readIndex fs = .error e fs := by
  simp only [readIndex, h, refused, Action.ofExcept]

theorem readIndex_of_error {why : IoError} (h : readText r.indexPath fs = .error why fs)
    (other : why ≠ .notFound) : r.readIndex fs = .error (.io why) fs := by
  simp only [readIndex, h]

theorem Indexed.readIndex_eq (h : r.Indexed fs place index) : r.readIndex fs = .ok index fs := by
  obtain ⟨content, mode, found, parsed⟩ := h.stored
  exact readIndex_of_readText (h.reaches.readText_ok found) parsed

theorem list_answer (h : r.readIndex fs = .ok index fs) : r.list.answer fs = .ok index.entries :=
  Action.answer_bind_of_ok h

theorem contains_answer (h : r.readIndex fs = .ok index fs) (name : TemplateName) :
    (r.contains name).answer fs = .ok (index.contains name) :=
  Action.answer_bind_of_ok h

theorem get_answer_none (h : r.readIndex fs = .ok index fs) (free : index.get? name = none) :
    (r.get name).answer fs = .error (.templateNotFound name.text) := by
  rw [get, Action.answer_bind_of_ok h, free]
  rfl

/-- The answer for a record whose path leads to a place. -/
theorem get_answer_some (h : r.readIndex fs = .ok index fs) (found : index.get? name = some record)
    (reaches : Reaches fs .entry record.configFile q) :
    (r.get name).answer fs = (configAnswer name record (fs.get? q)).map (⟨name, record, ·⟩) := by
  have read : (readConfig name record).answer fs = configAnswer name record (fs.get? q) := by
    simp only [Action.answer, readConfig, reaches.readText_eq, query, configAnswer]
    cases readNode (fs.get? q) with
    | error why => cases why <;> rfl
    | ok content =>
      simp only [Action.ofExcept]
      cases Template.parse content <;> rfl
  rw [get, Action.answer_bind_of_ok h, found]
  cases run : readConfig name record fs with
  | ok t fs₁ =>
    rw [← read, Action.answer_of_ok run]
    exact Action.answer_bind_of_ok run
  | error e fs₁ =>
    rw [← read, Action.answer_of_error run]
    exact Action.answer_bind_of_error run

/-- The answer for a record whose config file cannot be reached. -/
theorem get_answer_error {why : IoError} (h : r.readIndex fs = .ok index fs)
    (found : index.get? name = some record)
    (config : readText record.configFile fs = .error why fs) :
    ∃ e, (r.get name).answer fs = .error e
      ∧ (why ≠ .notFound → e = .io why) := by
  rw [get, Action.answer_bind_of_ok h, found]
  by_cases missing : why = .notFound
  · subst missing
    have read : readConfig name record fs
        = .error (.configMissing record.configFile name.text) fs := by
      simp only [readConfig, config]
    exact ⟨_, Action.answer_bind_of_error read, fun other => absurd rfl other⟩
  · have read : readConfig name record fs = .error (.io why) fs := by
      simp only [readConfig, config]
    exact ⟨_, Action.answer_bind_of_error read, fun _ => rfl⟩

theorem get_answer_readIndex_error {e : Error} (h : r.readIndex fs = .error e fs) :
    (r.get name).answer fs = .error e :=
  Action.answer_bind_of_error h

/-! ## Changes of the index -/

/-- Open the index file, which is made if it is missing. -/
def openIndex (r : FiledRegistry) : FileAction Place := do
  createDirectories ((Path.parent? r.indexPath).getD [])
  openFile r.indexPath

/-- A path of the index that leads somewhere once more directories are made, although no
file is there, leads nowhere yet. -/
private theorem IsFresh.readIndex_eq (h : r.IsFresh fs) (grown : Grown fs fs₁)
    (located : locate fs₁ .node r.indexPath = .ok place) (free : fs₁.get? place = none) :
    r.readIndex fs = .ok .empty fs := by
  have missing : readText r.indexPath fs = .error .notFound fs := by
    cases before : locate fs .node r.indexPath with
    | error why =>
      by_cases missing : why = .notFound
      · subst missing
        exact readText_of_locate_error before
      · have after := locate_error_of_grown grown before missing
        simp [located] at after
    | ok q =>
      cases found : fs.get? q with
      | none => simp only [readText, query, lookup, before, found]
      | some x =>
        exfalso
        have looked : lookup fs r.indexPath = .ok (q, x) := by simp only [lookup, before, found]
        cases x with
        | file content mode => exact h fs q content mode (.refl fs) looked
        | link target =>
          exact (resolves_of_locate before).not_link_of_node (Text.split_ne_nil _ _) target found
        | directory mode =>
          have leads := (leads_of_lookup looked rfl).preserved grown.preserved
          have there := leads.there
          rw [← Except.ok.inj ((leads.locate_eq (refusal?_of_locate before)).symm.trans located)]
            at free
          simp [isDirectoryAt, free] at there
  simp only [readIndex, missing]

/-- What is opened is the index that the registry is in order with. -/
theorem Sound.openIndex_ok (h : r.Sound fs index) (ok : r.openIndex fs = .ok place fs') :
    r.readIndex fs = .ok index fs ∧ r.Indexed fs' place index
      ∧ (index = .empty ∨ Grown fs fs') := by
  obtain ⟨_, fs₁, made, opened⟩ := bind_ok_iff.1 ok
  have grown : Grown fs fs₁ := after_ok made ▸ grown_createDirectories _ fs
  obtain ⟨located, state⟩ := openFile_ok opened
  have onNode := locate_node_of_file located
  cases h with
  | fresh free =>
    rcases state with ⟨none, _, put⟩ | ⟨_, content, mode, found⟩
    · have after := put.reaches_of_free located none
      refine ⟨free.readIndex_eq grown onNode none, ?_, .inl rfl⟩
      refine ⟨⟨after.locate_node, after.notLink⟩, ⟨[], _, put.self, Index.parse_nil⟩, ?_, ?_, ?_⟩
      · intro e mem
        simp [SortedMap.empty] at mem
      · intro name record found
        simp at found
      · intro name record found
        simp at found
    · refine absurd ?_ (free fs₁ place content mode grown)
      simp only [lookup, onNode, found]
  | indexed order =>
    have order₁ := order.grown grown
    obtain rfl := Except.ok.inj (order₁.reaches.located.symm.trans onNode)
    obtain ⟨content, mode, found, _⟩ := order₁.stored
    rcases state with ⟨none, _⟩ | ⟨rfl, _⟩
    · simp [none] at found
    · exact ⟨order.readIndex_eq, order₁, .inr grown⟩

theorem Sound.openIndex_error {why : IoError} (h : r.Sound fs index)
    (error : r.openIndex fs = .error why fs') : r.Sound fs' index := by
  rcases bind_error_iff.1 error with refused | ⟨_, fs₁, made, refused⟩
  · exact h.grown (after_error refused ▸ grown_createDirectories _ fs)
  · rw [openFile_error refused]
    exact h.grown (after_ok made ▸ grown_createDirectories _ fs)

private theorem readPlace_ok (h : readPlace place fs = .ok content fs') :
    fs' = fs ∧ ∃ mode, fs.get? place = some (.file (.text content) mode) := by
  obtain rfl := query_state.1 _ h
  refine ⟨rfl, ?_⟩
  simp only [readPlace, query] at h
  split at h
  · rename_i read
    split at read
    · simp at read
    · rename_i found
      obtain rfl : _ = content := (Except.ok.inj read).trans (EStateM.Result.ok.inj h).1
      exact ⟨_, found⟩
    · simp at read
    · simp at read
  · simp at h

variable {change : Index → Action (α × Index × List Place)} {a : α} {e : Error}

/-- The index can be opened at this place and read. -/
structure Opens (r : FiledRegistry) (fs : FileSystem) (place : Place) (index : Index)
    (fs₁ : FileSystem) : Prop where
  opened : r.openIndex fs = .ok place fs₁
  stored : ∃ content mode, fs₁.get? place = some (.file (.text content) mode)
    ∧ Index.parse content = .ok index

theorem Sound.opens (h : r.Sound fs index) (ok : r.openIndex fs = .ok place fs₁) :
    r.Opens fs place index fs₁ :=
  ⟨ok, (h.openIndex_ok ok).2.1.stored⟩

theorem Opens.unique {place' : Place} {index' : Index} {fs₂ : FileSystem}
    (h : r.Opens fs place index fs₁) (h' : r.Opens fs place' index' fs₂) :
    place = place' ∧ index = index' ∧ fs₁ = fs₂ := by
  obtain ⟨rfl, rfl⟩ := EStateM.Result.ok.inj (h.opened.symm.trans h'.opened)
  obtain ⟨content, mode, there, parsed⟩ := h.stored
  obtain ⟨content', mode', there', parsed'⟩ := h'.stored
  obtain ⟨rfl, rfl⟩ : content = content' ∧ mode = mode' := by simpa [there] using there'
  exact ⟨rfl, Except.ok.inj (parsed.symm.trans parsed'), rfl⟩

/-- Behind a change the new index is written to the file that was opened, unless the change has
detached that file. -/
def Writes (place : Place) (detached : List Place) (index : Index) (fs fs' : FileSystem) : Prop :=
  place ∈ detached ∧ fs' = fs
    ∨ place ∉ detached ∧ writePlace place (.text index.render) fs = .ok () fs'

/-- A change that gives a result has read the index in the file that was opened, and its own
one is written there unless that file is gone. -/
theorem updateIndex_inv (h : r.updateIndex change fs = .ok a fs') :
    ∃ place index fs₁ fs₂ index' detached, r.Opens fs place index fs₁
      ∧ change index fs₁ = .ok (a, index', detached) fs₂
      ∧ Writes place detached index' fs₂ fs' := by
  unfold updateIndex at h
  obtain ⟨_, fs₁, made, behindHome⟩ := bind_ok_iff.1 h
  obtain ⟨place, fs₂, opened, behindOpen⟩ := bind_ok_iff.1 behindHome
  have ok : r.openIndex fs = .ok place fs₂ :=
    bind_ok_iff.2 ⟨(), fs₁, run_ok_iff.1 made, run_ok_iff.1 opened⟩
  obtain ⟨content, fs₃, read, behindRead⟩ := bind_ok_iff.1 behindOpen
  obtain ⟨same, mode, there⟩ := readPlace_ok (run_ok_iff.1 read)
  obtain ⟨index, fs₄, found, behindParse⟩ := bind_ok_iff.1 behindRead
  obtain ⟨parsed, same'⟩ := Action.ofExcept_ok_iff.1 found
  subst same same'
  obtain ⟨⟨result, index', detached⟩, fs₃, changed, rest⟩ := bind_ok_iff.1 behindParse
  refine ⟨place, index, _, fs₃, index', detached, ⟨ok, content, mode, there, parsed⟩, ?_⟩
  dsimp only at rest
  split at rest
  · rename_i gone
    obtain ⟨rfl, rfl⟩ := pure_ok_iff.1 rest
    exact ⟨changed, .inl ⟨gone, rfl⟩⟩
  · rename_i kept
    obtain ⟨_, _, written, rest⟩ := bind_ok_iff.1 rest
    obtain ⟨rfl, rfl⟩ := pure_ok_iff.1 rest
    exact ⟨changed, .inr ⟨kept, run_ok_iff.1 written⟩⟩

/-- A change that fails could not open the index, or could not read it, or has read the one in
the file that was opened and fails itself. -/
theorem updateIndex_error_inv (h : r.updateIndex change fs = .error e fs') :
    (∃ why, r.openIndex fs = .error why fs')
      ∨ ∃ place fs₁, r.openIndex fs = .ok place fs₁ ∧ (fs' = fs₁
        ∨ ∃ index, r.Opens fs place index fs₁ ∧ change index fs₁ = .error e fs') := by
  unfold updateIndex at h
  rcases bind_error_iff.1 h with refused | ⟨_, fs₁, made, behindHome⟩
  · obtain ⟨why, _, refused⟩ := run_error refused
    exact .inl ⟨why, bind_error_iff.2 (.inl refused)⟩
  rcases bind_error_iff.1 behindHome with refused | ⟨place, fs₂, opened, behindOpen⟩
  · obtain ⟨why, _, refused⟩ := run_error refused
    exact .inl ⟨why, bind_error_iff.2 (.inr ⟨(), fs₁, run_ok_iff.1 made, refused⟩)⟩
  have ok : r.openIndex fs = .ok place fs₂ :=
    bind_ok_iff.2 ⟨(), fs₁, run_ok_iff.1 made, run_ok_iff.1 opened⟩
  refine .inr ⟨place, fs₂, ok, ?_⟩
  rcases bind_error_iff.1 behindOpen with refused | ⟨content, fs₃, read, behindRead⟩
  · obtain ⟨why, _, refused⟩ := run_error refused
    exact .inl (query_state.2 why refused)
  obtain ⟨same, mode, there⟩ := readPlace_ok (run_ok_iff.1 read)
  rcases bind_error_iff.1 behindRead with refused | ⟨index, fs₄, found, behindParse⟩
  · exact .inl ((Action.ofExcept_error_iff.1 refused).2.symm.trans same)
  obtain ⟨parsed, same'⟩ := Action.ofExcept_ok_iff.1 found
  subst same same'
  rcases bind_error_iff.1 behindParse with refused | ⟨⟨result, index', detached⟩, fs₃, _, rest⟩
  · exact .inr ⟨index, ⟨ok, content, mode, there, parsed⟩, refused⟩
  exfalso
  dsimp only at rest
  split at rest
  · simp [pure, EStateM.pure] at rest
  · rcases bind_error_iff.1 rest with refused | ⟨_, _, _, last⟩
    · obtain ⟨why, _, refused⟩ := run_error refused
      exact writePlace_ne_error refused
    · simp [pure, EStateM.pure] at last

/-- Without an index that can be read, no change is made. -/
theorem IsLost.updateIndex_error (lost : r.IsLost fs)
    (change : Index → Action (α × Index × List Place)) :
    ∃ e fs', r.updateIndex change fs = .error e fs' ∧ Grown fs fs' := by
  unfold updateIndex
  cases made : createDirectories ((Path.parent? r.indexPath).getD []) fs with
  | error why fs₁ =>
    have grown : Grown fs fs₁ := after_error made ▸ grown_createDirectories _ fs
    exact ⟨.io why, fs₁, bind_error_iff.2 (.inl (by simp only [run, made])), grown⟩
  | ok _ fs₁ =>
  have grown : Grown fs fs₁ := after_ok made ▸ grown_createDirectories _ fs
  cases opened : openFile r.indexPath fs₁ with
  | error why fs₂ =>
    obtain rfl := openFile_error opened
    refine ⟨.io why, fs₂, bind_error_iff.2 (.inr ⟨(), fs₂, run_ok_iff.2 made, ?_⟩), grown⟩
    exact bind_error_iff.2 (.inl (by simp only [run, opened]))
  | ok place fs₂ =>
  obtain ⟨located, state⟩ := openFile_ok opened
  have read := readText_of_locate (locate_node_of_file located)
  obtain ⟨e, refused⟩ := lost fs₁ grown
  rcases state with ⟨none, _⟩ | ⟨rfl, content, mode, found⟩
  · simp [readIndex, read, query, none, readNode] at refused
  -- the index is opened, but what stands in it is none
  have unread : ∃ e, ((readPlace place).run >>= fun t => Action.ofExcept (Index.parse t)) fs₂
      = .error e fs₂ := by
    cases content with
    | text content =>
      refine ⟨e, bind_error_iff.2 (.inr ⟨content, fs₂, run_ok_iff.2 ?_, ?_⟩)⟩
      · simp only [readPlace, query, found]
      · simpa only [readIndex, read, query, found, readNode] using refused
    | binary bytes =>
      refine ⟨.io .invalidData, bind_error_iff.2 (.inl ?_)⟩
      simp only [run, readPlace, query, found]
  obtain ⟨e, unread⟩ := unread
  refine ⟨e, fs₂, ?_, grown⟩
  refine bind_error_iff.2 (.inr ⟨(), fs₂, run_ok_iff.2 made, ?_⟩)
  refine bind_error_iff.2 (.inr ⟨place, fs₂, run_ok_iff.2 opened, ?_⟩)
  rcases bind_error_iff.1 unread with unread | ⟨t, fs₃, read, unread⟩
  · exact bind_error_iff.2 (.inl unread)
  · exact bind_error_iff.2 (.inr ⟨t, fs₃, read, bind_error_iff.2 (.inl unread)⟩)

end FiledRegistry

end Scaffold
