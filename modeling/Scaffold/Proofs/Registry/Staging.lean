import Scaffold.Proofs.FileSystem.Staging
import Scaffold.Proofs.Placeholder.Spelling
import Scaffold.Proofs.Registry.Renewal

/-!
# Config files that are staged

A config file is moved to its place in one step. Before that it may be staged: made under a name
of its own beside the other config files, and taken away again if it cannot be moved. As long as
nothing else has the name, templates are put and replaced as if there were no such file: with the
same answers, and with the same files in the end.
-/

namespace Scaffold

open FileSystem FileAction FiledRegistry

/-! ## Names -/

theorem Text.utf8Length_of_ascii {t : Text} (h : ∀ c ∈ t, c.toNat ≤ 0x7F) :
    Text.utf8Length t = t.length := by
  induction t with
  | nil => rfl
  | cons c t ih =>
    have one : c.utf8Size = 1 := if_pos (show c.val ≤ 0x7F from h c List.mem_cons_self)
    rw [Text.utf8Length, one, ih fun c' mem => h c' (List.mem_cons_of_mem _ mem), List.length_cons]
    omega

/-- The name of a file that is staged: six letters or digits behind a dot and three letters. -/
structure StagingName where
  /-- The part that tells the name from others. -/
  letters : Text
  length_eq : letters.length = 6
  plain : ∀ c ∈ letters, c.isAlphanum = true

namespace StagingName

variable (s : StagingName)

def text : Text := ".tmp".toList ++ s.letters

/-- The path of the file, which starts at the root. -/
def path (workDir : Place) (location : Path) : Path :=
  Path.join (pathOf workDir) (Path.join location s.text)

/-- The name that is asked for to see whether a file can be staged. -/
def zeros : StagingName := ⟨"000000".toList, by decide, List.all_eq_true.1 (by decide)⟩

theorem path_zeros (workDir : Place) (location : Path) :
    zeros.path workDir location = stagingPath workDir location := rfl

private theorem range_of_mem_text {c : Char} (mem : c ∈ s.text) :
    c = '.' ∨ 0x30 ≤ c.toNat ∧ c.toNat ≤ 0x7A := by
  rcases List.mem_append.1 mem with mem | mem
  · have fixed : ".tmp".toList.all fun c => c = '.' ∨ 0x30 ≤ c.toNat ∧ c.toNat ≤ 0x7A := by decide
    simpa using List.all_eq_true.1 fixed c mem
  · exact .inr (Placeholder.range_of_isAlphanum (s.plain c mem))

theorem length_text : s.text.length = 10 := by simp [text, s.length_eq]

theorem utf8Length_text : Text.utf8Length s.text = 10 := by
  rw [Text.utf8Length_of_ascii, length_text]
  intro c mem
  rcases s.range_of_mem_text mem with rfl | ⟨_, high⟩
  · decide
  · exact Nat.le_trans high (by decide)

theorem isStep_text : IsStep s.text := by
  have other {t : Text} (short : t.length < 10) : s.text ≠ t := by
    rintro rfl
    exact absurd s.length_text (Nat.ne_of_lt short)
  have notSlash : '/' ∉ s.text := fun mem => absurd (s.range_of_mem_text mem) (by decide)
  have notNul : '\x00' ∉ s.text := fun mem => absurd (s.range_of_mem_text mem) (by decide)
  have notIdle : Path.isIdle s.text = false := by
    simp [Path.isIdle, other (t := []), other (t := ['.'])]
  exact ⟨⟨other (by decide), notSlash⟩, notIdle, other (by decide), notNul⟩

theorem isName_text : IsName .entry s.text [] :=
  ⟨s.isStep_text.notIdle, s.isStep_text.notUp, by simp,
    by simp [Text.fits, utf8Length_text, maxNameLength]⟩

/-- Config files and staged files have different names. -/
theorem configName_ne_text (name : TemplateName) : name.configName ≠ s.text := by
  obtain ⟨text, valid⟩ := name
  intro same
  cases text with
  | nil => simp [isTemplateName] at valid
  | cons first rest =>
    obtain rfl : first = '.' := (List.cons.inj same).1
    simp [isTemplateName] at valid

theorem path_eq (workDir : Place) (location : Path) :
    s.path workDir location = Path.join (Path.join (pathOf workDir) location) s.text :=
  Path.join_join _ _ s.isStep_text.word

theorem getLast?_path_ne (workDir : Place) (location : Path) :
    (Path.segments (s.path workDir location)).getLast? ≠ some [] := by
  obtain ⟨front, segs, _⟩ := Path.segments_join (Path.join (pathOf workDir) location)
    s.isStep_text.word
  rw [path_eq, segs, List.getLast?_concat]
  simpa using s.isStep_text.word.1

/-- A path to which a name is joined is refused or not, whatever the name. -/
private theorem refusal?_join (s' : StagingName) (p : Path) :
    refusal? (Path.join p s'.text) = refusal? (Path.join p s.text) := by
  have joined (s : StagingName) : Path.join p s.text = Path.slashed p ++ s.text :=
    Path.join_eq_slashed s.isStep_text.word.not_absolute p
  simp only [refusal?, joined, List.mem_append, s.isStep_text.noNul, s'.isStep_text.noNul, or_false,
    List.append_eq_nil_iff, s.isStep_text.word.1, s'.isStep_text.word.1, and_false, Text.fits,
    Text.utf8Length_append, utf8Length_text]

/-- Whatever its name, a file is staged in the same directory or refused for the same reason. -/
theorem locate_path (fs : FileSystem) (workDir : Place) (location : Path) :
    (∃ why, locate fs .entry (s.path workDir location) = .error why
        ∧ locate fs .entry (stagingPath workDir location) = .error why)
      ∨ ∃ dir, locate fs .entry (s.path workDir location) = .ok (.text s.text :: dir)
        ∧ locate fs .entry (stagingPath workDir location) = .ok (.text zeros.text :: dir) := by
  rw [← path_zeros, path_eq, path_eq]
  obtain ⟨front, segs, _⟩ := Path.exists_segments_join (Path.join (pathOf workDir) location)
  refine locate_entry_concat s.isName_text zeros.isName_text (segs _ s.isStep_text.word)
    (segs _ zeros.isStep_text.word) ?_ (refusal?_join ..)
  rw [Path.isAbsolute_join _ zeros.isStep_text.word, Path.isAbsolute_join _ s.isStep_text.word]

/-- Nothing stands where a file would be staged. -/
def IsFree (s : StagingName) (fs : FileSystem) (location : Path) : Prop :=
  ∀ q, locate fs .entry (s.path fs.workDir location) = .ok q → fs.get? q = none

end StagingName

namespace FiledRegistry

variable {r : FiledRegistry} {fs fs₁ base : FileSystem} {place : Place} {index : Index}
  {name : TemplateName} {record : Record} {origin : Origin} {now : Instant} {t : Template} {α : Type}
  {s : StagingName}

/-! ## Writing -/

/-- Write the config file of a record by way of a file that is staged. -/
def writeStaged (s : StagingName) (record : Record) (t : Template) : Action Place := do
  (createDirectories record.location).run
  let fs ← MonadState.get
  if fs.isDirectory record.location then
    (stageFile (s.path fs.workDir record.location) record.configFile (.text t.render)
      configFileMode).run
  else throw (.notADirectory record.location)

/-- It is written as it would be in one step. -/
theorem writeStaged_eq (isOf : record.IsOf name)
    (free : ∀ fs₁, createDirectories record.location fs = .ok () fs₁ → s.IsFree fs₁ record.location) :
    writeStaged s record t fs = writeConfig record t fs := by
  unfold writeStaged writeConfig
  cases made : createDirectories record.location fs with
  | error why fs₁ =>
    have refused : (createDirectories record.location).run fs = .error (.io why) fs₁ := by
      simp only [run, made]
    rw [bind_of_error refused, bind_of_error refused]
  | ok _ fs₁ =>
  rw [bind_of_ok (run_ok_iff.2 made), bind_of_ok (run_ok_iff.2 made),
    bind_of_ok (Scaffold.get_ok_iff.2 ⟨rfl, rfl⟩), bind_of_ok (Scaffold.get_ok_iff.2 ⟨rfl, rfl⟩)]
  split
  case isFalse => rfl
  rename_i there
  obtain ⟨_, dir, leads⟩ := leads_of_isDirectory there
  rcases s.locate_path fs₁ fs₁.workDir record.location with ⟨why, refused, refused'⟩
    | ⟨dir', located, located'⟩
  · have unchecked : (checkStaging record.location).run fs₁ = .error (.io why) fs₁ := by
      simp only [run, checkStaging, query]
      rw [stagingPath] at refused'
      simp only [refused', Except.map]
    rw [bind_of_error unchecked]
    simp only [run, stageFile_error refused]
  · rw [bind_of_ok (run_ok_iff.2 (checkStaging_ok_iff.2 ⟨_, located'⟩))]
    have step : IsStep name.configName :=
      ⟨name.isWord_configName, name.configName_notIdle, name.configName_notUp, name.configName_noNul⟩
    have staged : stageFile (s.path fs₁.workDir record.location) record.configFile
        (.text t.render) configFileMode fs₁
          = replaceFile record.configFile (.text t.render) configFileMode fs₁ := by
      refine stageFile_eq located (free fs₁ made _ located) (s.getLast?_path_ne _ _) ?_ ?_
      · intro fs₂ preserved
        rw [isOf]
        exact leads.locate_join_eq (leads.preserved preserved) step
      · intro led
        obtain ⟨_, same⟩ := isOf.exists_place led
        exact s.configName_ne_text name (Octets.text.inj (List.cons.inj same).1).symm
    simp only [run, staged]

/-! ## Stores -/

/-- Store a template under a free name, with its config file written in this way. -/
def putBy (r : FiledRegistry) (write : Record → Template → Action Place) (now : Instant)
    (name : TemplateName) (origin : Origin) (t : Template) : Action Record :=
  r.updateIndex fun index => do
    if index.contains name then throw (.templateExists name.text)
    let record := origin.record name (some now)
    let place ← write record t
    return (record, index.insert name record, [place])

/-- Store a template in the stead of the one of its name, with its config file written in this
way. -/
def replaceBy (r : FiledRegistry) (write : Record → Template → Action Place) (now : Instant)
    (name : TemplateName) (origin : Origin) (t : Template) : Action Record :=
  r.updateIndex fun index => do
    match index.get? name with
    | none => throw (.templateNotFound name.text)
    | some previous =>
      let record := origin.record name (some now)
      let place ← write record t
      let stale ← if Path.same previous.configFile record.configFile then pure []
        else removeStale previous.configFile
      return (record, index.insert name record, place :: stale)

theorem put_eq_putBy (r : FiledRegistry) : r.put = r.putBy writeConfig := rfl

theorem replace_eq_replaceBy (r : FiledRegistry) : r.replace = r.replaceBy writeConfig := rfl

/-- What a change does is decided by what it does where the index is open. -/
private theorem updateIndex_congr {change change' : Index → Action (α × Index × List Place)}
    (h : ∀ place base index, r.openIndex fs = .ok place base →
      change index base = change' index base) :
    r.updateIndex change fs = r.updateIndex change' fs := by
  unfold updateIndex
  refine bind_congr_of_ok rfl fun _ fs₁ made => ?_
  refine bind_congr_of_ok rfl fun place fs₂ opened => ?_
  refine bind_congr_of_ok rfl fun content fs₃ read => ?_
  refine bind_congr_of_ok rfl fun index fs₄ parsed => ?_
  obtain rfl := query_state.1 _ (run_ok_iff.1 read)
  obtain ⟨_, rfl⟩ := Action.ofExcept_ok_iff.1 parsed
  have ok : r.openIndex fs = .ok place fs₃ :=
    bind_ok_iff.2 ⟨(), fs₁, run_ok_iff.1 made, run_ok_iff.1 opened⟩
  exact bind_congr_of_ok (h place fs₃ index ok) fun _ _ _ => rfl

variable (free : ∀ place base, r.prepare origin.location fs = .ok place base →
  s.IsFree base origin.location)

include free

private theorem writeStaged_eq_of_prepare (opened : r.openIndex fs = .ok place base) :
    writeStaged s (origin.record name (some now)) t base
      = writeConfig (origin.record name (some now)) t base :=
  writeStaged_eq (origin.isOf_record name _) fun fs₁ made => free place fs₁ (prepare_of_ok opened made)

/-- A template is put in the same way with its config file staged or not. -/
theorem putBy_writeStaged_eq :
    r.putBy (writeStaged s) now name origin t fs = r.put now name origin t fs := by
  refine updateIndex_congr fun place base index opened => ?_
  split
  · rfl
  · exact bind_congr_of_ok (writeStaged_eq_of_prepare free opened) fun _ _ _ => rfl

/-- A template is replaced in the same way with its config file staged or not. -/
theorem replaceBy_writeStaged_eq :
    r.replaceBy (writeStaged s) now name origin t fs = r.replace now name origin t fs := by
  refine updateIndex_congr fun place base index opened => ?_
  cases index.get? name with
  | none => rfl
  | some old => exact bind_congr_of_ok (writeStaged_eq_of_prepare free opened) fun _ _ _ => rfl

end FiledRegistry

end Scaffold
