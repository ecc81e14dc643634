import Scaffold.Command.Basic
import Scaffold.Proofs.Capture.Scan
import Scaffold.Proofs.Instantiation.Outcome

/-!
# Entries with the same rendered names

Entries of different names can have the same names once these are rendered, and nothing
prevents them from being written to one place. What stands there in the end is decided by
their order: of several files the last one stays, and of several directories the first one
gives the mode, for modes are set backwards. So an instantiation that gives a result has
lost no entry if and only if no two of them have the same rendered names.
-/

namespace Scaffold

namespace FileSystem

variable {fs fs' : FileSystem} {dir q : Place} {kind : EntryKind} {mode : Mode}

/-- The kind of entry that stands at a place, if one does. -/
def kindAt (fs : FileSystem) (q : Place) : Option EntryKind :=
  match fs.get? q with
  | some (.file ..) => some .file
  | some (.directory _) => some .directory
  | _ => none

theorem kindAt_of_file {content : Octets} (found : fs.get? q = some (.file content mode)) :
    fs.kindAt q = some .file := by
  rw [kindAt, found]

theorem kindAt_of_isDirectoryAt (dir : fs.isDirectoryAt q = true) :
    fs.kindAt q = some .directory := by
  obtain ⟨mode, found⟩ := get?_of_isDirectoryAt dir
  rw [kindAt, found]

theorem kindAt_cases (h : fs.kindAt q = some kind) :
    (kind = .file ∧ ∃ content mode, fs.get? q = some (.file content mode))
      ∨ (kind = .directory ∧ ∃ mode, fs.get? q = some (.directory mode)) := by
  unfold kindAt at h
  split at h
  · rename_i content mode found
    exact .inl ⟨(Option.some.inj h).symm, content, mode, found⟩
  · rename_i mode found
    exact .inr ⟨(Option.some.inj h).symm, mode, found⟩
  · simp at h

end FileSystem

namespace Instantiation

open FileAction FileSystem

variable {fs fs' fs₁ fs₂ : FileSystem} {target : Path} {dest place q : Place} {names ns : List Text}
  {p : PlannedEntry} {plan before after dirs : List PlannedEntry} {goal : Goal} {x : Node}
  {kind : EntryKind} {mode : Mode}

theorem isBelow_of_isAt (here : p.IsAt target names) : p.IsBelow target :=
  ⟨names, here.some, here.steps, here.path⟩

/-- The target leads to this directory, and no link stands below it. -/
structure Landing (fs : FileSystem) (target : Path) (dest : Place) : Prop where
  leads : Leads fs target dest
  noLink : NoLinkBelow fs dest

namespace Landing

theorem grown (h : Landing fs target dest) (grown : Grown fs fs') : Landing fs' target dest :=
  ⟨h.leads.preserved grown.preserved, h.noLink.grown grown⟩

theorem place_eq (h : Landing fs target dest) (here : p.IsAt target names)
    (located : locate fs goal p.path = .ok place) : place = placeOf dest names := by
  rw [here.path] at located
  exact h.leads.locate_eq_placeOf h.noLink here.steps here.some located

/-! ## One part -/

theorem writeEntry (h : Landing fs target dest) (here : p.IsAt target names)
    (ok : writeEntry p fs = .ok () fs') : Landing fs' target dest := by
  have confined := (confined_writeEntry h.leads (isBelow_of_isAt here)).ok ok (.refl h.noLink)
  exact ⟨h.leads.preserved confined.preserved, confined.inside⟩

theorem setMode (h : Landing fs target dest) (here : p.IsAt target names)
    (ok : setMode p.path mode fs = .ok () fs') : Landing fs' target dest := by
  have confined := (confined_setMode h.leads (isBelow_of_isAt here) mode).ok ok (.refl h.noLink)
  exact ⟨h.leads.preserved confined.preserved, confined.inside⟩

/-- A directory is made where none is, and nothing that stands anywhere changes. -/
theorem writeEntry_directory (h : Landing fs target dest) (here : p.IsAt target names)
    (isDir : p.kind = .directory) (ok : Instantiation.writeEntry p fs = .ok () fs') :
    Grown fs fs' ∧ fs'.isDirectoryAt (placeOf dest names) = true := by
  simp only [Instantiation.writeEntry, isDir] at ok
  have grown : Grown fs fs' := after_ok ok ▸ grown_createDirectories p.path fs
  have deep : Path.steps p.path ≠ [] := by
    rw [here.steps_path]
    simp [here.some]
  obtain ⟨allowed, place, leads⟩ := leads_of_createDirectories ok (ancestors_ne_nil_of_steps deep)
  obtain rfl := (h.grown grown).place_eq here (leads.locate_eq allowed)
  exact ⟨grown, leads.there⟩

/-- A file is written over a file or where nothing is, and nothing that stands elsewhere
changes. -/
theorem writeEntry_file (h : Landing fs target dest) (here : p.IsAt target names)
    (isFile : p.kind = .file) (ok : Instantiation.writeEntry p fs = .ok () fs') :
    fs'.get? (placeOf dest names) = some (.file (.text p.content) p.mode)
      ∧ ∀ q x, q ≠ placeOf dest names → fs.get? q = some x → fs'.get? q = some x := by
  simp only [Instantiation.writeEntry, isFile] at ok
  obtain ⟨_, fs₁, made, ok⟩ := bind_ok_iff.1 ok
  obtain ⟨place, fs₂, written, moded⟩ := bind_ok_iff.1 ok
  have grown : Grown fs fs₁ := after_ok made ▸ grown_createDirectories _ fs
  have opened : Landing fs₁ target dest := h.grown grown
  obtain rfl := opened.place_eq here (writeFile_ok written).1
  obtain ⟨mode, put⟩ : ∃ mode, IsPut fs₁ (placeOf dest names) (.file (.text p.content) mode) fs₂ := by
    obtain ⟨_, ⟨_, _, put⟩ | ⟨_, mode, _, put⟩⟩ := writeFile_ok written
    · exact ⟨_, put⟩
    · exact ⟨mode, put⟩
  have landed : Landing fs₂ target dest := by
    have confined : Confined fs₁ fs₂ dest := (Confined.refl opened.noLink).isPut
      (below_placeOf dest here.some) put (preserved_writeFile written) (by simp)
    exact ⟨opened.leads.preserved confined.preserved, confined.inside⟩
  obtain ⟨place, x, looked, set⟩ := setMode_ok moded
  obtain rfl := landed.place_eq here (locate_of_lookup looked)
  obtain rfl := Option.some.inj (put.self.symm.trans (get?_of_lookup looked))
  refine ⟨set.self, fun q x away found => ?_⟩
  rw [set.other away, put.other away, grown.kept q x found]

/-- A part changes nothing that stands at another place, and a directory changes nothing. -/
theorem writeEntry_kept (h : Landing fs target dest) (here : p.IsAt target names)
    (ok : Instantiation.writeEntry p fs = .ok () fs') (found : fs.get? q = some x)
    (away : p.kind = .file → q ≠ placeOf dest names) : fs'.get? q = some x := by
  cases kind : p.kind with
  | directory => exact (h.writeEntry_directory here kind ok).1.kept q x found
  | file => exact (h.writeEntry_file here kind ok).2 q x (away kind) found

/-- A part stands at its place as what it is. -/
theorem writeEntry_kindAt (h : Landing fs target dest) (here : p.IsAt target names)
    (ok : Instantiation.writeEntry p fs = .ok () fs') :
    fs'.kindAt (placeOf dest names) = some p.kind := by
  cases kind : p.kind with
  | directory => exact kindAt_of_isDirectoryAt (h.writeEntry_directory here kind ok).2
  | file => exact kindAt_of_file (h.writeEntry_file here kind ok).1

/-- No part takes the place of an entry of the other kind. -/
theorem writeEntry_keeps_kindAt (h : Landing fs target dest) (here : p.IsAt target names)
    (ok : Instantiation.writeEntry p fs = .ok () fs') (old : fs.kindAt q = some kind) :
    fs'.kindAt q = some kind := by
  by_cases overwritten : p.kind = .file ∧ q = placeOf dest names
  · obtain ⟨isFile, rfl⟩ := overwritten
    have written := (h.writeEntry_file here isFile ok).1
    obtain ⟨rfl, _⟩ | ⟨rfl, mode, found⟩ := kindAt_cases old
    · exact kindAt_of_file written
    · have dir := (preserved_writeEntry ok).dirs _ (isDirectoryAt_of_get? found)
      simp [isDirectoryAt, written, Node.isDirectory] at dir
  · have kept {x : Node} (found : fs.get? q = some x) : fs'.get? q = some x :=
      h.writeEntry_kept here ok found fun isFile same => overwritten ⟨isFile, same⟩
    obtain ⟨rfl, content, mode, found⟩ | ⟨rfl, mode, found⟩ := kindAt_cases old
    · exact kindAt_of_file (kept found)
    · exact kindAt_of_isDirectoryAt (isDirectoryAt_of_get? (kept found))

/-- The mode is set at the place of the part and nowhere else. -/
theorem setMode_isPut (h : Landing fs target dest) (here : p.IsAt target names)
    (ok : FileAction.setMode p.path mode fs = .ok () fs') :
    ∃ x, fs.get? (placeOf dest names) = some x
      ∧ IsPut fs (placeOf dest names) (x.withMode mode) fs' := by
  obtain ⟨place, x, looked, set⟩ := setMode_ok ok
  obtain rfl := h.place_eq here (locate_of_lookup looked)
  exact ⟨x, get?_of_lookup looked, set⟩

/-! ## All parts -/

theorem writeEntries (h : Landing fs target dest) (parts : ∀ p ∈ plan, ∃ names, p.IsAt target names)
    (ok : writeEntries plan fs = .ok () fs') : Landing fs' target dest := by
  have below : ∀ p ∈ plan, p.IsBelow target := by
    intro p mem
    obtain ⟨names, here⟩ := parts p mem
    exact isBelow_of_isAt here
  have confined := (confined_writeEntries h.leads below).ok ok (.refl h.noLink)
  exact ⟨h.leads.preserved confined.preserved, confined.inside⟩

/-- What no file of the plan is written over stays as it is. -/
theorem writeEntries_kept (h : Landing fs target dest)
    (parts : ∀ p ∈ plan, ∃ names, p.IsAt target names)
    (ok : Instantiation.writeEntries plan fs = .ok () fs') (found : fs.get? q = some x)
    (away : ∀ p ∈ plan, p.kind = .file → ∀ names, p.IsAt target names → q ≠ placeOf dest names) :
    fs'.get? q = some x := by
  induction plan generalizing fs with
  | nil =>
    simp only [Instantiation.writeEntries, EStateM.Result.ok.injEq, true_and] at ok
    exact ok ▸ found
  | cons p more ih =>
    obtain ⟨_, fs₁, first, others⟩ := bind_ok_iff.1 ok
    obtain ⟨⟨names, here⟩, parts⟩ := List.forall_mem_cons.1 parts
    obtain ⟨awayHere, away⟩ := List.forall_mem_cons.1 away
    have found₁ : fs₁.get? q = some x :=
      h.writeEntry_kept here first found fun isFile => awayHere isFile names here
    exact ih (h.writeEntry here first) parts others found₁ away

theorem writeEntries_keeps_kindAt (h : Landing fs target dest)
    (parts : ∀ p ∈ plan, ∃ names, p.IsAt target names)
    (ok : Instantiation.writeEntries plan fs = .ok () fs') (old : fs.kindAt q = some kind) :
    fs'.kindAt q = some kind := by
  induction plan generalizing fs with
  | nil =>
    simp only [Instantiation.writeEntries, EStateM.Result.ok.injEq, true_and] at ok
    exact ok ▸ old
  | cons p more ih =>
    obtain ⟨_, fs₁, first, others⟩ := bind_ok_iff.1 ok
    obtain ⟨⟨names, here⟩, parts⟩ := List.forall_mem_cons.1 parts
    exact ih (h.writeEntry here first) parts others (h.writeEntry_keeps_kindAt here first old)

end Landing

theorem writeEntries_append_ok (ok : writeEntries (before ++ after) fs = .ok () fs') :
    ∃ fs₁, writeEntries before fs = .ok () fs₁ ∧ writeEntries after fs₁ = .ok () fs' := by
  induction before generalizing fs with
  | nil => exact ⟨fs, rfl, ok⟩
  | cons p more ih =>
    obtain ⟨_, fs₂, first, others⟩ := bind_ok_iff.1 ok
    obtain ⟨fs₁, written, rest⟩ := ih others
    exact ⟨fs₁, bind_ok_iff.2 ⟨(), fs₂, first, written⟩, rest⟩

theorem setModes_append_ok (ok : setModes (before ++ after) fs = .ok () fs') :
    ∃ fs₁, setModes before fs = .ok () fs₁ ∧ setModes after fs₁ = .ok () fs' := by
  induction before generalizing fs with
  | nil => exact ⟨fs, rfl, ok⟩
  | cons p more ih =>
    obtain ⟨_, fs₂, first, others⟩ := bind_ok_iff.1 ok
    obtain ⟨fs₁, moded, rest⟩ := ih others
    exact ⟨fs₁, bind_ok_iff.2 ⟨(), fs₂, first, moded⟩, rest⟩

namespace Landing

/-- The run up to a part, the part, and the run behind it. -/
theorem writeEntries_split (h : Landing fs target dest)
    (parts : ∀ q ∈ before ++ p :: after, ∃ names, q.IsAt target names)
    (ok : Instantiation.writeEntries (before ++ p :: after) fs = .ok () fs') :
    ∃ fs₁ fs₂, Landing fs₁ target dest ∧ Instantiation.writeEntry p fs₁ = .ok () fs₂
      ∧ Instantiation.writeEntries after fs₂ = .ok () fs'
      ∧ ∀ q ∈ after, ∃ names, q.IsAt target names := by
  obtain ⟨ahead, behind⟩ := List.forall_mem_append.1 parts
  obtain ⟨fs₁, front, rest⟩ := writeEntries_append_ok ok
  obtain ⟨_, fs₂, this, others⟩ := bind_ok_iff.1 rest
  exact ⟨fs₁, fs₂, h.writeEntries ahead front, this, others, (List.forall_mem_cons.1 behind).2⟩

/-- Every part stands at its place as what it is when all are written. -/
theorem writeEntries_kindAt (h : Landing fs target dest)
    (parts : ∀ p ∈ plan, ∃ names, p.IsAt target names)
    (ok : Instantiation.writeEntries plan fs = .ok () fs') (mem : p ∈ plan)
    (here : p.IsAt target names) : fs'.kindAt (placeOf dest names) = some p.kind := by
  obtain ⟨before, after, rfl⟩ := List.append_of_mem mem
  obtain ⟨fs₁, fs₂, opened, this, others, later⟩ := h.writeEntries_split parts ok
  exact (opened.writeEntry here this).writeEntries_keeps_kindAt later others
    (opened.writeEntry_kindAt here this)

/-- A file stays as it was written if no later part has its names. -/
theorem writeEntries_file (h : Landing fs target dest)
    (parts : ∀ q ∈ before ++ p :: after, ∃ names, q.IsAt target names)
    (ok : Instantiation.writeEntries (before ++ p :: after) fs = .ok () fs')
    (here : p.IsAt target names) (isFile : p.kind = .file)
    (last : ∀ q ∈ after, ¬ q.IsAt target names) :
    fs'.get? (placeOf dest names) = some (.file (.text p.content) p.mode) := by
  obtain ⟨fs₁, fs₂, opened, this, others, later⟩ := h.writeEntries_split parts ok
  refine (opened.writeEntry here this).writeEntries_kept later others
    (opened.writeEntry_file here isFile this).1 ?_
  intro q mem _ ns there same
  obtain rfl := placeOf_inj same
  exact last q mem there

/-! ## All modes -/

theorem setModes (h : Landing fs target dest) (parts : ∀ p ∈ dirs, ∃ names, p.IsAt target names)
    (ok : setModes dirs fs = .ok () fs') : Landing fs' target dest := by
  have below : ∀ p ∈ dirs, p.IsBelow target := by
    intro p mem
    obtain ⟨names, here⟩ := parts p mem
    exact isBelow_of_isAt here
  have confined := (confined_setModes h.leads below).ok ok (.refl h.noLink)
  exact ⟨h.leads.preserved confined.preserved, confined.inside⟩

/-- What has none of the names stays as it is. -/
theorem setModes_other (h : Landing fs target dest)
    (parts : ∀ p ∈ dirs, ∃ names, p.IsAt target names)
    (ok : Instantiation.setModes dirs fs = .ok () fs')
    (away : ∀ p ∈ dirs, ∀ names, p.IsAt target names → q ≠ placeOf dest names) :
    fs'.get? q = fs.get? q := by
  induction dirs generalizing fs with
  | nil =>
    simp only [Instantiation.setModes, EStateM.Result.ok.injEq, true_and] at ok
    rw [ok]
  | cons p more ih =>
    obtain ⟨_, fs₁, first, others⟩ := bind_ok_iff.1 ok
    obtain ⟨⟨names, here⟩, parts⟩ := List.forall_mem_cons.1 parts
    obtain ⟨awayHere, away⟩ := List.forall_mem_cons.1 away
    obtain ⟨_, _, set⟩ := h.setMode_isPut here first
    rw [ih (h.setMode here first) parts others away]
    exact set.other (awayHere names here)

/-- A directory keeps the mode it was given if no later part has its names. -/
theorem setModes_directory (h : Landing fs target dest)
    (parts : ∀ q ∈ before ++ p :: after, ∃ names, q.IsAt target names)
    (ok : Instantiation.setModes (before ++ p :: after) fs = .ok () fs')
    (here : p.IsAt target names) (isDir : fs.isDirectoryAt (placeOf dest names) = true)
    (last : ∀ q ∈ after, ¬ q.IsAt target names) :
    fs'.get? (placeOf dest names) = some (.directory p.mode) := by
  obtain ⟨ahead, behind⟩ := List.forall_mem_append.1 parts
  have later := (List.forall_mem_cons.1 behind).2
  obtain ⟨fs₁, front, rest⟩ := setModes_append_ok ok
  obtain ⟨_, fs₂, this, others⟩ := bind_ok_iff.1 rest
  have opened : Landing fs₁ target dest := h.setModes ahead front
  obtain ⟨x, found, set⟩ := opened.setMode_isPut here this
  obtain ⟨mode, there⟩ := get?_of_isDirectoryAt ((preserved_setModes front).dirs _ isDir)
  obtain rfl := Option.some.inj (found.symm.trans there)
  rw [(opened.setMode here this).setModes_other later others, set.self]
  · rfl
  · intro q mem ns there same
    obtain rfl := placeOf_inj same
    exact last q mem there

end Landing

/-! ## What becomes of the entries -/

variable {t : Template} {values resolved : Values} {entries : List Entry} {report : Report}

/-- What stands where several entries have the same rendered names. -/
structure Settles (values : Values) (entries : List Entry) (dest : Place) (fs' : FileSystem) :
    Prop where
  /-- They are of one kind. -/
  kinds : ∀ e ∈ entries, ∀ e' ∈ entries, ∀ names, Plan.renderNames values e = .ok names →
    Plan.renderNames values e' = .ok names → e.kind = e'.kind
  /-- Of files the last one stays. -/
  files : ∀ before e after, entries = before ++ e :: after → e.kind = .file →
    ∀ names content, Plan.renderNames values e = .ok names →
    Plan.renderContent values e = .ok content →
    (∀ e' ∈ after, Plan.renderNames values e' ≠ .ok names) →
    fs'.get? (placeOf dest names) = some (.file (.text content) e.mode)
  /-- Of directories the first one gives the mode. -/
  directories : ∀ before e after, entries = before ++ e :: after → e.kind = .directory →
    ∀ names, Plan.renderNames values e = .ok names →
    (∀ e' ∈ before, Plan.renderNames values e' ≠ .ok names) →
    fs'.get? (placeOf dest names) = some (.directory e.mode)

/-- No entry is lost to another one. -/
structure Intact (values : Values) (entries : List Entry) (dest : Place) (created : List Path)
    (fs' : FileSystem) : Prop where
  /-- No path is written twice. -/
  once : created.Nodup
  /-- Every file has its rendered content and its mode. -/
  files : ∀ e ∈ entries, e.kind = .file → ∀ names content, Plan.renderNames values e = .ok names →
    Plan.renderContent values e = .ok content →
    fs'.get? (placeOf dest names) = some (.file (.text content) e.mode)
  /-- Every directory has its mode. -/
  directories : ∀ e ∈ entries, e.kind = .directory → ∀ names, Plan.renderNames values e = .ok names →
    fs'.get? (placeOf dest names) = some (.directory e.mode)

/-- No two entries have the same names when they are rendered. -/
def Distinct (values : Values) (entries : List Entry) : Prop :=
  entries.Pairwise fun e e' => Plan.renderNames values e ≠ Plan.renderNames values e'

private theorem not_isAt_of_rendered (planned : Plan.ofEntries values target entries = .ok plan)
    (none : ∀ e ∈ entries, Plan.renderNames values e ≠ .ok names) :
    ∀ p ∈ plan, ¬ p.IsAt target names := by
  intro p mem here
  obtain ⟨e, inEntries, rendered⟩ := exists_rendered planned mem here
  exact none e inEntries rendered

private theorem directoriesBackwards_split (isDir : p.kind = .directory) :
    directoriesBackwards (before ++ p :: after)
      = directoriesBackwards after ++ p :: directoriesBackwards before := by
  simp [directoriesBackwards, isDir]

namespace Landing

variable {e : Entry} {ahead behind : List Entry} {content : Text} (h : Landing fs₁ target dest)

include h

/-- Entries of the same rendered names that could all be written are of one kind. -/
theorem kind_eq_of_rendered {e' : Entry}
    (planned : Plan.ofEntries values target entries = .ok plan)
    (written : Instantiation.writeEntries plan fs₁ = .ok () fs₂) (mem : e ∈ entries)
    (mem' : e' ∈ entries) (rendered : Plan.renderNames values e = .ok names)
    (rendered' : Plan.renderNames values e' = .ok names) : e.kind = e'.kind := by
  have parts := exists_isAt planned
  obtain ⟨p, inPlan, here, _, kind, _⟩ := exists_planned planned mem rendered
  obtain ⟨p', inPlan', here', _, kind', _⟩ := exists_planned planned mem' rendered'
  have this := h.writeEntries_kindAt parts written inPlan here
  rw [h.writeEntries_kindAt parts written inPlan' here'] at this
  rw [← kind, ← kind', Option.some.inj this]

/-- Of the files of the same rendered names the last one stays. -/
theorem last_file_stays
    (planned : Plan.ofEntries values target (ahead ++ e :: behind) = .ok plan)
    (written : Instantiation.writeEntries plan fs₁ = .ok () fs₂)
    (moded : Instantiation.setModes (directoriesBackwards plan) fs₂ = .ok () fs')
    (isFile : e.kind = .file) (rendered : Plan.renderNames values e = .ok names)
    (made : Plan.renderContent values e = .ok content)
    (last : ∀ e' ∈ behind, Plan.renderNames values e' ≠ .ok names) :
    fs'.get? (placeOf dest names) = some (.file (.text content) e.mode) := by
  have parts := exists_isAt planned
  obtain ⟨front, p, rest, rfl, _, part, later⟩ := Plan.ofEntries_split planned
  obtain ⟨_, _, made', _, kind, mode⟩ := Plan.ofEntry_ok part
  obtain rfl := Except.ok.inj (made.symm.trans made')
  have here := isAt_of_rendered part rendered
  have stands := h.writeEntries_file parts written here (kind.trans isFile)
    (not_isAt_of_rendered later last)
  -- A directory of the same names would stand at the place of the file.
  have away : ∀ q ∈ directoriesBackwards (front ++ p :: rest), ∀ ns, q.IsAt target ns →
      placeOf dest names ≠ placeOf dest ns := by
    intro q isDir ns there same
    obtain rfl := placeOf_inj same
    obtain ⟨inPlan, kind⟩ := mem_directoriesBackwards.1 isDir
    have other := h.writeEntries_kindAt parts written inPlan there
    rw [kindAt_of_file stands, kind] at other
    simp at other
  have opened : Landing fs₂ target dest := h.writeEntries parts written
  rw [opened.setModes_other (fun q mem => parts q (mem_directoriesBackwards.1 mem).1) moded away,
    stands, mode]

/-- Of the directories of the same rendered names the first one gives the mode. -/
theorem first_directory_gives_mode
    (planned : Plan.ofEntries values target (ahead ++ e :: behind) = .ok plan)
    (written : Instantiation.writeEntries plan fs₁ = .ok () fs₂)
    (moded : Instantiation.setModes (directoriesBackwards plan) fs₂ = .ok () fs')
    (isDir : e.kind = .directory) (rendered : Plan.renderNames values e = .ok names)
    (first : ∀ e' ∈ ahead, Plan.renderNames values e' ≠ .ok names) :
    fs'.get? (placeOf dest names) = some (.directory e.mode) := by
  have parts := exists_isAt planned
  obtain ⟨front, p, rest, rfl, earlier, part, _⟩ := Plan.ofEntries_split planned
  obtain ⟨_, _, _, _, kind, mode⟩ := Plan.ofEntry_ok part
  have here := isAt_of_rendered part rendered
  have there := h.writeEntries_kindAt parts written (by simp) here
  rw [kind, isDir] at there
  have isDirectory : fs₂.isDirectoryAt (placeOf dest names) = true := by
    obtain ⟨file, _⟩ | ⟨_, mode, found⟩ := kindAt_cases there
    · simp at file
    · exact isDirectoryAt_of_get? found
  have back : ∀ q ∈ directoriesBackwards (front ++ p :: rest), ∃ names, q.IsAt target names :=
    fun q mem => parts q (mem_directoriesBackwards.1 mem).1
  rw [directoriesBackwards_split (kind.trans isDir)] at moded back
  have opened : Landing fs₂ target dest := h.writeEntries parts written
  rw [opened.setModes_directory back moded here isDirectory, mode]
  intro q mem
  exact not_isAt_of_rendered earlier first q (mem_directoriesBackwards.1 mem).1

/-- What a plan leaves behind once it is written. -/
theorem settles (planned : Plan.ofEntries values target entries = .ok plan)
    (written : Instantiation.writeEntries plan fs₁ = .ok () fs₂)
    (moded : Instantiation.setModes (directoriesBackwards plan) fs₂ = .ok () fs') :
    Settles values entries dest fs' where
  kinds _ mem _ mem' _ rendered rendered' :=
    h.kind_eq_of_rendered planned written mem mem' rendered rendered'
  files := by
    rintro ahead e behind rfl isFile names content rendered made last
    exact h.last_file_stays planned written moded isFile rendered made last
  directories := by
    rintro ahead e behind rfl isDir names rendered first
    exact h.first_directory_gives_mode planned written moded isDir rendered first

end Landing

/-- The paths of a plan are different if and only if the rendered names are. -/
theorem nodup_paths_iff (planned : Plan.ofEntries values target entries = .ok plan) :
    (plan.map PlannedEntry.path).Nodup ↔ Distinct values entries := by
  have pairs : (plan.map Except.ok).Pairwise (fun x y : Except Error PlannedEntry =>
      ∀ p q, x = .ok p → y = .ok q → p.path ≠ q.path) ↔ (plan.map PlannedEntry.path).Nodup := by
    simp [List.Nodup, List.pairwise_map]
  rw [← pairs, ← Plan.ofEntries_ok_iff.1 planned, List.pairwise_map, Distinct]
  apply List.Pairwise.iff_of_mem
  intro e e' mem mem'
  obtain ⟨p, _, part⟩ := Plan.exists_part planned mem
  obtain ⟨p', _, part'⟩ := Plan.exists_part planned mem'
  obtain ⟨names, rendered, here⟩ := isAt_of_ofEntry part
  obtain ⟨names', rendered', here'⟩ := isAt_of_ofEntry part'
  constructor
  · intro apart same
    rw [rendered, rendered'] at same
    obtain rfl := Except.ok.inj same
    exact apart p p' part part' (here.path.trans here'.path.symm)
  · intro differ q q' made made' same
    obtain rfl := Except.ok.inj (part.symm.trans made)
    obtain rfl := Except.ok.inj (part'.symm.trans made')
    have there : p.IsAt target names' := ⟨here'.some, here'.steps, same.trans here'.path⟩
    exact differ (by rw [rendered, rendered', here.unique there])

/-- Where no names meet, each entry is the first and the last of its names. -/
theorem Settles.intact (h : Settles values entries dest fs') {created : List Path}
    (once : created.Nodup) (distinct : Distinct values entries) :
    Intact values entries dest created fs' := by
  refine ⟨once, fun e mem isFile names content rendered made => ?_,
    fun e mem isDir names rendered => ?_⟩
  · obtain ⟨before, after, rfl⟩ := List.append_of_mem mem
    refine h.files before e after rfl isFile names content rendered made fun e' mem' same => ?_
    have behind := (List.pairwise_append.1 distinct).2.1
    exact (List.pairwise_cons.1 behind).1 e' mem' (rendered.trans same.symm)
  · obtain ⟨before, after, rfl⟩ := List.append_of_mem mem
    refine h.directories before e after rfl isDir names rendered fun e' mem' same => ?_
    have across := (List.pairwise_append.1 distinct).2.2
    exact across e' mem' e List.mem_cons_self (same.trans rendered.symm)

end Instantiation

open Instantiation FileSystem FileAction

variable {fs fs' : FileSystem} {t : Template} {target : Path} {values : Values} {report : Report}

/-- An instantiation that gives a result has lost no entry if and only if no two entries have
the same rendered names. Where some do, the last file and the mode of the first directory
stay. The directory of the target must hold no link, by which two names could lead to one
place; behind a target that is written without `..` and is not the empty one it holds none. -/
theorem intact_iff_distinct (h : instantiate t target values fs = .ok report fs') :
    ∃ resolved dest, Contract.resolve t.arguments values = .ok resolved
      ∧ destination? fs' target = some dest
      ∧ (NoLinkBelow fs dest → Settles (lookupValues values resolved) t.entries dest fs'
        ∧ (Intact (lookupValues values resolved) t.entries dest report.created fs'
          ↔ Distinct (lookupValues values resolved) t.entries))
      ∧ (target ≠ [] → ['.', '.'] ∉ Path.segments target → NoLinkBelow fs dest) := by
  obtain ⟨resolved, plan, fs₁, fs₂, checked, prepared, made, written, moded, rfl⟩ :=
    instantiate_ok h
  obtain ⟨contract, planned⟩ := prepare_ok prepared
  by_cases trivial : plan = [] ∧ target = []
  · obtain ⟨rfl, rfl⟩ := trivial
    have entries : t.entries = [] := by simpa using Plan.ofEntries_ok_iff.1 planned
    refine ⟨resolved, fs'.workDir, contract, rfl, fun _ => ?_, fun some => absurd rfl some⟩
    rw [entries]
    refine ⟨⟨by simp, by simp, by simp⟩, iff_of_true ⟨by simp, by simp, by simp⟩ (by simp [Distinct])⟩
  obtain ⟨dest, leads⟩ := exists_leads prepared made written trivial
  have here := leads.preserved ((preserved_writeEntries written).trans (preserved_setModes moded))
  have grown : Grown fs fs₁ := after_ok made ▸ grown_createDirectories target fs
  refine ⟨resolved, dest, contract, destination?_of_leads here (refusal?_of_checkTarget checked),
    fun noLink => ?_, fun some noUp => ?_⟩
  · have landing : Landing fs₁ target dest := ⟨leads, noLink.grown grown⟩
    have settles := landing.settles planned written moded
    refine ⟨settles, fun intact => ?_, fun distinct => ?_⟩
    · exact (nodup_paths_iff planned).1 intact.once
    · exact settles.intact ((nodup_paths_iff planned).2 distinct) distinct
  · exact noLinkBelow_of_childNames (childNames_of_plain checked made leads some noUp)

/-- A project with two files whose names become the same when both values are the same. -/
def twinFiles : FileSystem :=
  let root : Place := [.text "p".toList]
  ((FileSystem.empty.put root (.directory 0o755)).put (.text "#\x7bb\x7d.txt".toList :: root)
    (.file (.text "second".toList) 0o644)).put (.text "#\x7ba\x7d.txt".toList :: root)
    (.file (.text "first".toList) 0o600)

def twinEntries : List Entry :=
  [⟨"#\x7ba\x7d.txt".toList, .file, ".".toList, 0o600, some "first".toList, []⟩,
    ⟨"#\x7bb\x7d.txt".toList, .file, ".".toList, 0o644, some "second".toList, []⟩]

/-- The template that is captured from the project. -/
def twinTemplate : Template :=
  ⟨twinEntries.map Entry.withArgumentNames, [⟨"a".toList, none⟩, ⟨"b".toList, none⟩]⟩

/-- Values for both arguments. -/
def twinValues (a b : Text) : Values := (SortedMap.empty.insert "a".toList a).insert "b".toList b

theorem intact_iff_distinct_twins :
    ∃ report fs', instantiate twinTemplate "out".toList (twinValues "x".toList "y".toList) twinFiles
        = .ok report fs'
      ∧ ∃ resolved dest, destination? fs' "out".toList = some dest
        ∧ Intact (lookupValues (twinValues "x".toList "y".toList) resolved) twinTemplate.entries dest
          report.created fs' := by
  obtain ⟨report, fs', ok⟩ : ∃ report fs',
      instantiate twinTemplate "out".toList (twinValues "x".toList "y".toList) twinFiles
        = .ok report fs' := by
    decide +kernel
  obtain ⟨resolved, dest, contract, located, law, free⟩ := intact_iff_distinct ok
  have known : Contract.resolve twinTemplate.arguments (twinValues "x".toList "y".toList)
      = .ok (twinValues "x".toList "y".toList) := rfl
  obtain rfl := Except.ok.inj (known.symm.trans contract)
  have distinct : Distinct (lookupValues (twinValues "x".toList "y".toList)
      (twinValues "x".toList "y".toList)) twinTemplate.entries := by
    exact List.pairwise_pair.2 (by decide +kernel)
  have noLink : NoLinkBelow twinFiles dest := free (by decide) (by decide)
  exact ⟨report, fs', ok, _, dest, located, (law noLink).2.2 distinct⟩

/-- One of the files is lost when both values are the same. -/
theorem exists_collision :
    Command.capture ⟨"/home".toList, "/home/templates".toList, "vim".toList, []⟩ "/p".toList []
        twinFiles = .ok twinTemplate
      ∧ lookup twinFiles "out".toList = .error .notFound
      ∧ ∃ report fs', instantiate twinTemplate "out".toList (twinValues "x".toList "x".toList) twinFiles
          = .ok report fs'
        ∧ report.created = ["out/x.txt".toList, "out/x.txt".toList]
        ∧ lookup fs' "out/x.txt".toList
          = .ok ([.text "x.txt".toList, .text "out".toList], .file (.text "second".toList) 0o644) := by
  refine ⟨?_, by decide +kernel, by decide +kernel⟩
  have project : IsProject twinFiles [.text "p".toList] := by decide +kernel
  have scanned : scan twinFiles [] "/p".toList = .ok twinEntries := by
    have visits := scan_pathOf project []
    rw [Scan.visits_eq (by decide +kernel)] at visits
    exact visits.trans (by decide +kernel)
  have compiled : IgnorePatterns.compile ([] ++ []) = .ok [] := rfl
  simp only [Command.capture, compiled, scanned]
  decide +kernel

end Scaffold
