import Scaffold.Proofs.Registry.Staging

/-!
# What a registry touches

A call that changes a registry touches the index file, the config file of the template that it
stores or deletes and, when it replaces a template, the old config file. Beside that it makes
the directories that are missing on the way to the index and to the location. Whatever else
stands in the file system, a file, a directory or a link, stays as it is, whether the call
succeeds or fails. Where a link stands at the end of the path of a config file, the link is
touched and not what it leads to.
-/

namespace Scaffold

open FileSystem FileAction

/-! ## Changes that touch certain places -/

namespace FileSystem

variable {fs fs' fs'' : FileSystem} {own made : Place → Prop} {place : Place} {gone : List Place}
  {path : Path} {x : Node}

/-- From `fs` to `fs'` every node stays as it is, unless its place is one of those that are
owned; and where nothing stood, directories may have been made at certain places. -/
structure Touches (own made : Place → Prop) (fs fs' : FileSystem) : Prop where
  others : ∀ q, fs'.get? q = fs.get? q ∨ own q
    ∨ fs.get? q = none ∧ fs'.isDirectoryAt q = true ∧ made q
  workDir : fs'.workDir = fs.workDir

namespace Touches

theorem refl (fs : FileSystem) : Touches own made fs fs := ⟨fun _ => .inl rfl, rfl⟩

theorem trans (h : Touches own made fs fs') (h' : Touches own made fs' fs'') :
    Touches own made fs fs'' := by
  refine ⟨fun q => ?_, h'.workDir.trans h.workDir⟩
  rcases h.others q with same | owned | ⟨none, dir, is_made⟩
  · rcases h'.others q with same' | owned | ⟨none, dir, is_made⟩
    · exact .inl (same'.trans same)
    · exact .inr (.inl owned)
    · exact .inr (.inr ⟨same.symm.trans none, dir, is_made⟩)
  · exact .inr (.inl owned)
  · rcases h'.others q with same' | owned | ⟨none', _, _⟩
    · exact .inr (.inr ⟨none, by rwa [isDirectoryAt, same', ← isDirectoryAt], is_made⟩)
    · exact .inr (.inl owned)
    · simp [isDirectoryAt, none'] at dir

end Touches

theorem IsPut.touches (put : IsPut fs place x fs') (owned : own place) :
    Touches own made fs fs' := by
  refine ⟨fun q => ?_, put.workDir⟩
  by_cases this : q = place
  · exact .inr (.inl (this ▸ owned))
  · exact .inl (put.other this)

theorem Removed.touches (removed : Removed gone fs fs') (owned : ∀ q ∈ gone, own q) :
    Touches own made fs fs' := by
  refine ⟨fun q => ?_, removed.workDir⟩
  by_cases mem : q ∈ gone
  · exact .inr (.inl (owned q mem))
  · exact .inl (removed.frame q mem)

theorem touches_createDirectories
    (leads : ∀ p ∈ ancestors path, ∀ q, Leads (after (createDirectories path) fs) p q → made q) :
    Touches own made fs (after (createDirectories path) fs) := by
  obtain ⟨grown, known⟩ := grown_createAll (ancestors path) fs
  refine ⟨fun q => ?_, grown.workDir⟩
  cases before : fs.get? q with
  | some x => exact .inl (grown.kept q x before)
  | none =>
    cases found : (after (createDirectories path) fs).get? q with
    | none => exact .inl rfl
    | some x =>
      have dir := grown.added q x before found
      obtain ⟨p, mem, _, led⟩ := known q x before found
      exact .inr (.inr ⟨rfl, by simp [isDirectoryAt, found, dir], leads p mem q led⟩)

theorem touches_writePlace {content : Octets} (h : writePlace place content fs = .ok () fs')
    (owned : own place) : Touches own made fs fs' := by
  obtain ⟨fs₁, written, put⟩ := writePlace_cases place content fs
  obtain rfl := (EStateM.Result.ok.inj (h.symm.trans written)).2
  rcases put with ⟨_, _, _, put⟩ | rfl
  · exact put.touches owned
  · exact .refl _

variable {α β : Type} {f : α → Action β} {y : Action α}

theorem touches_bind (first : Touches own made fs (y.after fs))
    (more : ∀ a fs₁, y fs = .ok a fs₁ → Touches own made fs₁ ((f a).after fs₁)) :
    Touches own made fs ((y >>= f).after fs) := by
  cases run : y fs with
  | ok a fs₁ =>
    rw [Action.after_of_ok run] at first
    rw [Action.after, bind_of_ok run]
    exact first.trans (more a fs₁ run)
  | error e fs₁ =>
    rw [Action.after_of_error run] at first
    rwa [Action.after_of_error (bind_of_error run)]

end FileSystem

namespace FiledRegistry

variable {r : FiledRegistry} {fs fs' base : FileSystem} {place q : Place} {path : Path}
  {index : Index} {name : TemplateName} {record : Record} {origin : Origin} {now : Instant}
  {t : Template} {own made : Place → Prop} {α : Type}
  {change : Index → Action (α × Index × List Place)}

/-! ## The index -/

/-- The directory in which the index is kept. -/
def home (r : FiledRegistry) : Path := (Path.parent? r.indexPath).getD []

section

variable (home : ∀ p ∈ ancestors r.home, ∀ q, Leads (after (createDirectories r.home) fs) p q → made q)

include home

private theorem touches_openIndex_ok (ok : r.openIndex fs = .ok place base) (owned : own place) :
    Touches own made fs base := by
  obtain ⟨_, fs₁, ready, opened⟩ := bind_ok_iff.1 ok
  have first : Touches own made fs fs₁ := after_ok ready ▸ touches_createDirectories home
  rcases (openFile_ok opened).2 with ⟨_, _, put⟩ | ⟨rfl, _⟩
  · exact first.trans (put.touches owned)
  · exact first

private theorem touches_openIndex_error {why : IoError} (refused : r.openIndex fs = .error why fs') :
    Touches own made fs fs' := by
  rcases bind_error_iff.1 refused with unready | ⟨_, fs₁, ready, refused⟩
  · exact after_error unready ▸ touches_createDirectories home
  · rw [openFile_error refused]
    exact after_ok ready ▸ touches_createDirectories home

/-- A change touches the index, and what it touches itself where the index is open. -/
theorem touches_updateIndex (owned : ∀ place base, r.openIndex fs = .ok place base → own place)
    (step : ∀ place base index, r.Opens fs place index base →
      Touches own made base ((change index).after base)) :
    Touches own made fs ((r.updateIndex change).after fs) := by
  cases run : r.updateIndex change fs with
  | ok a fs' =>
    obtain ⟨place, index, base, fs₁, index', detached, opens, changed, writes⟩ := updateIndex_inv run
    have first := touches_openIndex_ok home opens.opened (owned place base opens.opened)
    have second := step place base index opens
    rw [Action.after_of_ok changed] at second
    rw [Action.after_of_ok run]
    rcases writes with ⟨_, rfl⟩ | ⟨_, written⟩
    · exact first.trans second
    · exact (first.trans second).trans (touches_writePlace written (owned place base opens.opened))
  | error e fs' =>
    rw [Action.after_of_error run]
    rcases updateIndex_error_inv run with ⟨why, refused⟩ | ⟨place, base, opened, rest⟩
    · exact touches_openIndex_error home refused
    have first := touches_openIndex_ok home opened (owned place base opened)
    rcases rest with rfl | ⟨index, opens, refused⟩
    · exact first
    · have second := step place base index opens
      rw [Action.after_of_error refused] at second
      exact first.trans second

end

/-! ## Config files -/

theorem touches_writeConfig
    (leads : ∀ p ∈ ancestors record.location, ∀ q,
      Leads (after (createDirectories record.location) fs) p q → made q)
    (owned : ∀ fs₁ q, createDirectories record.location fs = .ok () fs₁ →
      locate fs₁ .entry record.configFile = .ok q → own q) :
    Touches own made fs ((writeConfig record t).after fs) := by
  cases run : writeConfig record t fs with
  | ok config fs' =>
    obtain ⟨fs₁, ready, located, _, put⟩ := writeConfig_ok run
    have first : Touches own made fs fs₁ := after_ok ready ▸ touches_createDirectories leads
    rw [Action.after_of_ok run]
    exact first.trans (put.touches (owned fs₁ config ready located))
  | error e fs' =>
    rw [Action.after_of_error run, writeConfig_refused run]
    exact touches_createDirectories leads

theorem touches_removeStale (owned : ∀ q, locateEntry fs path = .ok q → own q) :
    Touches own made fs ((removeStale path).after fs) := by
  unfold Action.after removeStale
  cases removed : removeFile path fs with
  | ok q fs' =>
    obtain ⟨located, noDir, rfl⟩ := removeFile_ok removed
    exact (removed_remove noDir).touches (by simpa using owned q located)
  | error why fs' =>
    obtain rfl := removeFile_error removed
    exact .refl _

theorem touches_takeConfig (owned : ∀ q, locateEntry fs record.configFile = .ok q → own q) :
    Touches own made fs ((takeConfig record).after fs) := by
  rcases takeConfig_cases record fs with ⟨e, refused⟩ | ⟨t, gone, fs', taken, which⟩
  · rw [Action.after_of_error refused]
    exact .refl fs
  · rw [Action.after_of_ok taken]
    rcases which with ⟨_, rfl⟩ | ⟨q, _, removed⟩
    · exact .refl _
    · obtain ⟨located, noDir, rfl⟩ := removeFile_ok removed
      exact (removed_remove noDir).touches (by simpa using owned q located)

/-! ## Calls -/

namespace Call

/-- The name and the origin of the template that a call stores. -/
def stored? : Call → Option (TemplateName × Origin)
  | put _ name origin _ | replace _ name origin _ => some (name, origin)
  | _ => none

/-- The files when a call gets to its config files: the index is open, and the location of a
new one is made. -/
def readied (r : FiledRegistry) (c : Call) (fs : FileSystem) : FileSystem :=
  match c.stored? with
  | some (_, origin) => FileAction.after (r.prepare origin.location) fs
  | none => FileAction.after r.openIndex fs

/-- The paths of the config files that a call writes or removes once all is ready for it. -/
inductive Concerns (r : FiledRegistry) (fs : FileSystem) : Call → Path → Prop
  | stored {c : Call} {name : TemplateName} {origin : Origin} {place : Place} {base : FileSystem}
      (stores : c.stored? = some (name, origin))
      (ready : r.prepare origin.location fs = .ok place base) :
      Concerns r fs c (origin.configFile name)
  | replaced {now : Instant} {name : TemplateName} {origin : Origin} {t : Template} {place : Place}
      {index : Index} {record : Record} {fs₁ base : FileSystem} (opens : r.Opens fs place index fs₁)
      (found : index.get? name = some record)
      (ready : r.prepare origin.location fs = .ok place base) :
      Concerns r fs (.replace now name origin t) record.configFile
  | deleted {name : TemplateName} {place : Place} {index : Index} {record : Record}
      {base : FileSystem} (opens : r.Opens fs place index base)
      (found : index.get? name = some record) : Concerns r fs (.delete name) record.configFile

/-- What is the call's own: the index file, where its path leads, and the config files, where
links at the ends of their paths are not followed. -/
inductive Owns (r : FiledRegistry) (fs : FileSystem) (c : Call) (q : Place) : Prop
  | index {base : FileSystem} (opened : r.openIndex fs = .ok q base)
  | config {path : Path} (concerns : c.Concerns r fs path)
      (located : locateEntry (c.readied r fs) path = .ok q)

/-- Where a call makes directories: on the way to the index and on the way to the location. -/
inductive Makes (r : FiledRegistry) (fs : FileSystem) (c : Call) (q : Place) : Prop
  | home {path : Path} (mem : path ∈ ancestors r.home)
      (leads : Leads (FileAction.after (createDirectories r.home) fs) path q)
  | location {name : TemplateName} {origin : Origin} {place : Place} {base : FileSystem} {path : Path}
      (stores : c.stored? = some (name, origin)) (opened : r.openIndex fs = .ok place base)
      (mem : path ∈ ancestors origin.location)
      (leads : Leads (FileAction.after (createDirectories origin.location) base) path q)

theorem readied_eq {c : Call} (stores : c.stored? = some (name, origin))
    (ready : r.prepare origin.location fs = .ok place base) : c.readied r fs = base := by
  simp only [readied, stores, after_ok ready]

theorem readied_delete (opened : r.openIndex fs = .ok place base) :
    (delete name).readied r fs = base := after_ok opened

/-- A config file is written where it is the call's own. -/
private theorem touches_stored {c : Call} (stores : c.stored? = some (name, origin))
    (opened : r.openIndex fs = .ok place base) :
    Touches (c.Owns r fs) (c.Makes r fs) base
      ((writeConfig (origin.record name (some now)) t).after base) := by
  refine touches_writeConfig (fun p mem q leads => .location stores opened mem leads) ?_
  intro fs₁ q made located
  have ready := prepare_of_ok opened made
  refine .config (.stored stores ready) ?_
  rw [readied_eq stores ready]
  exact ((origin.isOf_record name (some now)).locateEntry_eq fs₁).trans located

/-- A call touches only what is its own, whether it succeeds or fails. -/
theorem touches (r : FiledRegistry) (c : Call) (fs : FileSystem) :
    Touches (c.Owns r fs) (c.Makes r fs) fs (c.after r fs) := by
  cases c with
  | contains name =>
    rw [Call.after, r.asks_contains name fs]
    exact .refl fs
  | get name =>
    rw [Call.after, r.asks_get name fs]
    exact .refl fs
  | list =>
    rw [Call.after, r.asks_list fs]
    exact .refl fs
  | put now name origin t =>
    refine touches_updateIndex (fun p mem q leads => .home mem leads)
      (fun place base opened => .index opened) fun place base index opens => ?_
    split
    · exact .refl base
    · exact touches_bind (touches_stored rfl opens.opened) fun _ fs₁ _ => .refl fs₁
  | replace now name origin t =>
    refine touches_updateIndex (fun p mem q leads => .home mem leads)
      (fun place base opened => .index opened) fun place base index opens => ?_
    cases found : index.get? name with
    | none => exact .refl base
    | some old =>
      refine touches_bind (touches_stored rfl opens.opened) fun config fs₂ written => ?_
      dsimp only
      split
      · exact .refl fs₂
      · refine touches_bind (touches_removeStale fun q located => ?_) fun _ fs₃ _ => .refl fs₃
        -- the old config file is looked for when the new one is there
        obtain ⟨fs₁, made, _, noDir, put⟩ := writeConfig_ok written
        have ready := prepare_of_ok opens.opened made
        refine .config (.replaced opens found ready) ?_
        rw [readied_eq rfl ready]
        exact put.locateEntry_before noDir located
  | delete name =>
    refine touches_updateIndex (fun p mem q leads => .home mem leads)
      (fun place base opened => .index opened) fun place base index opens => ?_
    cases found : index.get? name with
    | none => exact .refl base
    | some record =>
      refine touches_bind (touches_takeConfig fun q located => ?_) fun _ fs₁ _ => .refl fs₁
      exact .config (.deleted opens found) ((readied_delete opens.opened).symm ▸ located)

/-! ## Links to files -/

/-- When a call gets to its config files, the index has been opened and only directories have
been made since. -/
theorem Concerns.exists_opened {c : Call} (h : c.Concerns r fs path) :
    ∃ place fs₁, r.openIndex fs = .ok place fs₁ ∧ Grown fs₁ (c.readied r fs) := by
  have prepared {c : Call} {name : TemplateName} {origin : Origin} {place : Place}
      {base : FileSystem} (stores : c.stored? = some (name, origin))
      (ready : r.prepare origin.location fs = .ok place base) :
      ∃ place fs₁, r.openIndex fs = .ok place fs₁ ∧ Grown fs₁ (c.readied r fs) := by
    rw [readied_eq stores ready]
    obtain ⟨place, fs₁, opened, making⟩ := bind_ok_iff.1 ready
    obtain ⟨_, base, made, same⟩ := bind_ok_iff.1 making
    obtain ⟨_, rfl⟩ := pure_ok_iff.1 same
    exact ⟨place, fs₁, opened, after_ok made ▸ grown_createDirectories _ fs₁⟩
  cases h with
  | stored stores ready => exact prepared stores ready
  | replaced opens found ready => exact prepared rfl ready
  | deleted opens found => exact ⟨_, _, opens.opened, readied_delete opens.opened ▸ .refl _⟩

/-- Beside the index, every file that is there when a call gets to its config files was there
before. -/
theorem Concerns.file_before {c : Call} {content : Octets} {mode : Mode} (h : c.Concerns r fs path)
    (found : (c.readied r fs).get? q = some (.file content mode)) :
    (∃ base, r.openIndex fs = .ok q base) ∨ fs.get? q = some (.file content mode) := by
  have before {fs fs' : FileSystem} (grown : Grown fs fs')
      (found : fs'.get? q = some (.file content mode)) : fs.get? q = some (.file content mode) := by
    cases old : fs.get? q with
    | none => simpa [Node.isDirectory] using grown.added q _ old found
    | some x => exact (grown.kept q x old).symm.trans found
  obtain ⟨place, fs₁, opened, grown⟩ := h.exists_opened
  by_cases this : q = place
  · exact .inl ⟨fs₁, this ▸ opened⟩
  obtain ⟨_, fs₀, made, opening⟩ := bind_ok_iff.1 opened
  have found₁ := before grown found
  have found₀ : fs₀.get? q = some (.file content mode) := by
    rcases (openFile_ok opening).2 with ⟨_, _, put⟩ | ⟨rfl, _⟩
    · rwa [put.other this] at found₁
    · exact found₁
  exact .inr (before (after_ok made ▸ grown_createDirectories _ fs) found₀)

/-! ## Frames -/

/-- The call has left all others alone. -/
structure LeavesOthers (r : FiledRegistry) (c : Call) (fs fs' : FileSystem) : Prop where
  /-- Whatever stands at a place that is not the call's own stays, and nothing comes there but
  directories that are missing on its ways. -/
  others : ∀ q, fs'.get? q = fs.get? q ∨ c.Owns r fs q
    ∨ fs.get? q = none ∧ fs'.isDirectoryAt q = true ∧ c.Makes r fs q
  /-- A file to which a link at the place of a config file leads stays as it is, unless it is
  the index or another config file of the call. -/
  linked : ∀ path entry target p content mode, c.Concerns r fs path →
    locateEntry (c.readied r fs) path = .ok entry →
    (c.readied r fs).get? entry = some (.link target) →
    lookup (c.readied r fs) path = .ok (p, .file content mode) →
    fs'.get? p = some (.file content mode) ∨ (∃ base, r.openIndex fs = .ok p base)
      ∨ ∃ other, other ≠ path ∧ c.Concerns r fs other
        ∧ locateEntry (c.readied r fs) other = .ok p
  workDir : fs'.workDir = fs.workDir

theorem leavesOthers (r : FiledRegistry) (c : Call) (fs : FileSystem) :
    LeavesOthers r c fs (c.after r fs) := by
  have touched := touches r c fs
  refine ⟨touched.others, ?_, touched.workDir⟩
  intro path entry target p content mode concerns located isLink looked
  have found := get?_of_lookup looked
  rcases concerns.file_before found with index | before
  · exact .inr (.inl index)
  rcases touched.others p with same | owned | ⟨none, _, _⟩
  · exact .inl (same.trans before)
  · cases owned with
    | index opened => exact .inr (.inl ⟨_, opened⟩)
    | @config other concerns' located' =>
      refine .inr (.inr ⟨other, fun same => ?_, concerns', located'⟩)
      subst same
      obtain rfl := Except.ok.inj (located.symm.trans located')
      simp [isLink] at found
  · simp [none] at before

/-! ## Staged config files -/

/-- The files after a call that stages the config file that it writes. -/
def stagedAfter (s : StagingName) (r : FiledRegistry) : Call → FileSystem → FileSystem
  | put now name origin t => (r.putBy (writeStaged s) now name origin t).after
  | replace now name origin t => (r.replaceBy (writeStaged s) now name origin t).after
  | c => c.after r

/-- Nothing has the name of the staged file yet. -/
def IsFree (s : StagingName) (r : FiledRegistry) (fs : FileSystem) (c : Call) : Prop :=
  ∀ name origin, c.stored? = some (name, origin) →
    ∀ place base, r.prepare origin.location fs = .ok place base → s.IsFree base origin.location

theorem stagedAfter_eq {s : StagingName} {c : Call} (free : c.IsFree s r fs) :
    c.stagedAfter s r fs = c.after r fs := by
  cases c with
  | contains | get | list | delete => rfl
  | put now name origin t =>
    rw [stagedAfter, Call.after, Action.after, putBy_writeStaged_eq (free name origin rfl),
      Action.after]
  | replace now name origin t =>
    rw [stagedAfter, Call.after, Action.after, replaceBy_writeStaged_eq (free name origin rfl),
      Action.after]

end Call

/-- A call leaves everything alone that is not its own, and no file that it stages is left, for
the files are in the end what they are without it. -/
theorem call_touches_own_files (r : FiledRegistry) (c : Call) (fs : FileSystem) :
    c.LeavesOthers r fs (c.after r fs)
      ∧ ∀ s : StagingName, c.IsFree s r fs → c.stagedAfter s r fs = c.after r fs :=
  ⟨c.leavesOthers r fs, fun _ free => Call.stagedAfter_eq free⟩

/-- The files of a registry with one template. A link to another file stands where the config
file has been. -/
def linkedFiles : FileSystem :=
  (demoFiles.put [.text "n".toList] (.file (.text "kept".toList) 0o600)).put
    [.text "demo.json".toList, .text "t".toList] (.link "/n".toList)

def demoRenewal : Call := .replace .epoch demoName ⟨[], "t".toList, []⟩ demoTemplate

/-- The link is replaced by a config file, and the file that it led to stays. -/
theorem call_touches_own_files_linked :
    demoRenewal.IsFree .zeros homeRegistry linkedFiles
      ∧ linkedFiles.get? [.text "demo.json".toList, .text "t".toList] = some (.link "/n".toList)
      ∧ (demoRenewal.stagedAfter .zeros homeRegistry linkedFiles).get?
          [.text "demo.json".toList, .text "t".toList]
        = some (.file (.text demoTemplate.render) configFileMode)
      ∧ (demoRenewal.stagedAfter .zeros homeRegistry linkedFiles).get? [.text "n".toList]
        = some (.file (.text "kept".toList) 0o600)
      ∧ (demoRenewal.stagedAfter .zeros homeRegistry linkedFiles).get?
          [.text ".tmp000000".toList, .text "t".toList] = none := by
  obtain ⟨place, base, ready, free⟩ : ∃ place base,
      homeRegistry.prepare "t".toList linkedFiles = .ok place base
        ∧ ∀ q ∈ (locate base .entry (StagingName.zeros.path base.workDir "t".toList)).toOption,
          base.get? q = none := by
    decide +kernel
  have named : demoRenewal.IsFree .zeros homeRegistry linkedFiles := by
    intro name origin stores place' base' ready' q located
    obtain ⟨rfl, rfl⟩ : demoName = name ∧ _ = origin := by
      simpa [demoRenewal, Call.stored?] using stores
    obtain ⟨rfl, rfl⟩ := EStateM.Result.ok.inj (ready.symm.trans ready')
    exact free q (by simp [located, Except.toOption])
  rw [(call_touches_own_files homeRegistry demoRenewal linkedFiles).2 .zeros named]
  exact ⟨named, by decide +kernel, by decide +kernel, by decide +kernel, by decide +kernel⟩

end FiledRegistry

end Scaffold
