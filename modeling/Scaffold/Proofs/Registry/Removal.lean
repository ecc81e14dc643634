import Scaffold.Proofs.Registry.Renewal

/-!
# Templates whose config file is damaged

A template can be deleted whatever its config file holds, as long as that is text: text that
is no template counts as an empty one, and so does a file that is missing. Bytes that are no
text stop the deletion before anything is changed, and the template stays. If the config file
of a record is the index itself, all records go with it.
-/

namespace Scaffold

open FileSystem FileAction

variable {fs fs' fs₁ : FileSystem} {place config q : Place} {path : Path} {octets content : Octets}
  {mode mode' : Mode} {goal : Goal}

namespace FileSystem

theorem removed_file (found : fs.get? place = some (.file content mode)) :
    Removed [place] fs (fs.remove place) :=
  removed_remove (by simp [isDirectoryAt, found, Node.isDirectory])

/-- No way passes a file, so each leads where it did when the file is taken away. -/
theorem reaches_remove (found : fs.get? place = some (.file content mode))
    (located : locate fs goal path = .ok q)
    (ends : Ends fs (fs.remove place) goal (Path.segments path) q) :
    Reaches (fs.remove place) goal path q := by
  refine (removed_file found).spares.reaches located ?_ ends
  intro link on same
  rw [List.mem_singleton.1 same] at on
  exact not_mem_linksOn located (by simp [found]) on

/-- Nothing is read where a file was taken away. -/
theorem textAt_remove (located : locate fs goal path = .ok place)
    (found : fs.get? place = some (.file content mode)) :
    textAt (fs.remove place) path = .error .notFound := by
  have free : (fs.remove place).get? place = none :=
    (removed_file found).free place (List.mem_singleton_self _)
  have reaches := reaches_remove found located (.free free)
  simp only [textAt, reaches.locate_node, free, readNode]

/-- What is missing stays so when a file is written over. -/
theorem IsPut.textAt_missing (put : IsPut fs place (.file content mode') fs')
    (found : fs.get? place = some (.file octets mode))
    (missing : textAt fs path = .error .notFound) : textAt fs' path = .error .notFound := by
  simp only [textAt, put.locate_eq found] at missing ⊢
  cases located : locate fs .node path with
  | error why => simpa only [located] using missing
  | ok q =>
    simp only [located] at missing ⊢
    have other : q ≠ place := by
      rintro rfl
      rw [found] at missing
      cases octets <;> simp [readNode] at missing
    rw [put.other other, missing]

end FileSystem

namespace FiledRegistry

variable {r : FiledRegistry} {index : Index} {name : TemplateName} {record : Record} {t : Template}
  {gone : List Place} {old : Text}

/-- The index that is read is opened as it is. -/
theorem exists_opens_of_readIndex (read : r.readIndex fs = .ok index fs)
    (found : index.get? name = some record) :
    ∃ place, r.Opens fs place index fs ∧ locate fs .node r.indexPath = .ok place := by
  obtain ⟨indexed, _⟩ := readIndex_ok_iff.1 read
  obtain ⟨written, known, parsed⟩ := exists_text_of_indexOf indexed found
  obtain ⟨place, mode, located, there⟩ := textAt_ok_iff.1 known
  exact ⟨place, .of_located (locate_file_of_node located there) there parsed, located⟩

/-! ## Taking a config file away -/

/-- The template that is given out for the bytes of a config file that is removed. -/
def salvaged : Octets → Template
  | .text content => (Template.parse content).toOption.getD Template.empty
  | .binary .. => Template.empty

theorem takeConfig_missing (missing : textAt fs record.configFile = .error .notFound) :
    takeConfig record fs = .ok (Template.empty, []) fs := by
  simp only [takeConfig, readText_eq_textAt, query, missing]

theorem takeConfig_text (located : locate fs .entry record.configFile = .ok config)
    (found : fs.get? config = some (.file (.text old) mode)) :
    takeConfig record fs = .ok (salvaged (.text old), [config]) (fs.remove config) := by
  have reaches : Reaches fs .entry record.configFile config := ⟨located, by simp [found]⟩
  simp only [takeConfig, reaches.readText_ok found, removeFile_of_file located found, salvaged]

theorem takeConfig_binary (located : locate fs .entry record.configFile = .ok config)
    (found : fs.get? config = some (.file content mode)) (noText : ∀ text, content ≠ .text text) :
    takeConfig record fs = .error (.io .invalidData) fs := by
  have reaches : Reaches fs .entry record.configFile config := ⟨located, by simp [found]⟩
  cases content with
  | text text => exact absurd rfl (noText text)
  | binary => simp only [takeConfig, reaches.readText_eq, query, found, readNode]

/-! ## Deletions -/

/-- From `fs` to `fs'` the template is deleted and given out: its name is free, its config file
is gone, and every other record is as it was. -/
structure Deletes (r : FiledRegistry) (name : TemplateName) (record : Record) (t : Template)
    (index : Index) (fs fs' : FileSystem) : Prop where
  answer : r.delete name fs = .ok ⟨name, record, t⟩ fs'
  index : ∃ index', r.readIndex fs' = .ok index' fs' ∧ index'.get? name = none
    ∧ ∀ m, m ≠ name → index'.get? m = index.get? m
  gone : textAt fs' record.configFile = .error .notFound

/-- A template whose config file is gone is deleted when the index is written. -/
theorem Opens.exists_deletes (h : r.Opens fs place index fs)
    (found : index.get? name = some record) (taken : takeConfig record fs = .ok (t, gone) fs₁)
    (spared : place ∉ gone) (located : locate fs₁ .node r.indexPath = .ok place)
    (kept : fs₁.get? place = fs.get? place)
    (missing : textAt fs₁ record.configFile = .error .notFound) :
    ∃ fs', r.Deletes name record t index fs fs' := by
  obtain ⟨written, mode, there, parsed⟩ := h.stored
  rw [← kept] at there
  obtain ⟨fs', deleted, put⟩ : ∃ fs', r.delete name fs = .ok ⟨name, record, t⟩ fs'
      ∧ IsPut fs₁ place (.file (.text (Index.render (index.erase name))) mode) fs' := by
    refine h.updateIndex_ok ?_ spared there
    simp only [found]
    exact bind_of_ok taken
  have timed : Index.IsTimed (index.erase name) := (Index.isTimed_of_parse parsed).erase name
  have text : textAt fs' r.indexPath = .ok (Index.render (index.erase name)) :=
    textAt_ok_iff.2 ⟨place, mode, (put.locate_eq there ..).trans located, put.self⟩
  refine ⟨fs', deleted, ⟨index.erase name, readIndex_ok_iff.2 ⟨?_, rfl⟩, by simp, fun m other => ?_⟩,
    put.textAt_missing there missing⟩
  · rw [text, indexOf, Index.parse_render timed]
  · exact SortedMap.get?_erase_of_ne _ other

/-- If the config file is the index, the index is gone with it. -/
theorem Opens.delete_detached (h : r.Opens fs place index fs)
    (found : index.get? name = some record) (taken : takeConfig record fs = .ok (t, gone) fs₁)
    (met : place ∈ gone) : r.delete name fs = .ok ⟨name, record, t⟩ fs₁ := by
  refine h.updateIndex_detached (?_ : _ = EStateM.Result.ok (_, index.erase name, gone) _) met
  simp only [found]
  exact bind_of_ok taken

/-- If the config file cannot be taken away, nothing is done. -/
theorem Opens.delete_refused {e : Error} (h : r.Opens fs place index fs)
    (found : index.get? name = some record) (refused : takeConfig record fs = .error e fs) :
    r.delete name fs = .error e fs := by
  refine h.updateIndex_error ?_
  simp only [found]
  exact bind_of_error refused

/-! ## Damage -/

/-- Whatever text the config file holds, it is removed with the record, unless it is the index. -/
theorem Opens.exists_deletes_text (h : r.Opens fs place index fs)
    (found : index.get? name = some record) (led : locate fs .node r.indexPath = .ok place)
    (located : locate fs .entry record.configFile = .ok config)
    (there : fs.get? config = some (.file (.text old) mode)) (apart : place ≠ config) :
    ∃ fs', r.Deletes name record (salvaged (.text old)) index fs fs' := by
  have taken := takeConfig_text located there
  have reaches : Reaches fs .entry record.configFile config := ⟨located, by simp [there]⟩
  have gone := textAt_remove reaches.locate_node there
  have kept := (removed_file there).frame place (by simpa using apart)
  obtain ⟨_, _, isFile, _⟩ := h.stored
  have leads := reaches_remove there led (.of_eq kept (by simp [isFile]))
  exact h.exists_deletes found taken (by simpa using apart) leads.located kept gone

/-- If the config file is the index, the template is deleted as it should be exactly if it was
the only one. -/
theorem Opens.exists_deletes_index_iff (h : r.Opens fs place index fs)
    (found : index.get? name = some record) (led : locate fs .node r.indexPath = .ok place)
    (located : locate fs .entry record.configFile = .ok place)
    (there : fs.get? place = some (.file (.text old) mode)) :
    (∃ fs', r.Deletes name record (salvaged (.text old)) index fs fs')
      ↔ ∀ m, m ≠ name → index.get? m = none := by
  have deleted := h.delete_detached found (takeConfig_text located there) (by simp)
  have gone := textAt_remove (Reaches.mk located (by simp [there])).locate_node there
  have emptied : r.readIndex (fs.remove place) = .ok .empty (fs.remove place) := by
    rw [readIndex_ok_iff, textAt_remove led there]
    exact ⟨rfl, rfl⟩
  constructor
  · rintro ⟨fs', answer, ⟨index', read, _, others⟩, _⟩ m other
    obtain rfl := (EStateM.Result.ok.inj (deleted.symm.trans answer)).2
    obtain rfl := (EStateM.Result.ok.inj (emptied.symm.trans read)).1
    simpa using (others m other).symm
  · intro alone
    exact ⟨_, deleted, ⟨_, emptied, by simp, fun m other => by simp [alone m other]⟩, gone⟩

/-- A template without a config file can be deleted and counts as an empty one. One with a config
file can be deleted exactly if that holds a text, whatever text, and is not the index of other
templates; if it holds other bytes, the deletion is refused. -/
theorem delete_damaged_iff (read : r.readIndex fs = .ok index fs)
    (found : index.get? name = some record) :
    (textAt fs record.configFile = .error .notFound →
        ∃ fs', r.Deletes name record .empty index fs fs')
      ∧ ∀ config content mode, locate fs .entry record.configFile = .ok config →
        fs.get? config = some (.file content mode) →
        ((∃ fs', r.Deletes name record (salvaged content) index fs fs')
          ↔ (∃ text, content = .text text)
            ∧ (locate fs .node r.indexPath = .ok config → ∀ m, m ≠ name → index.get? m = none))
        ∧ ((∀ text, content ≠ .text text) → r.delete name fs = .error (.io .invalidData) fs) := by
  obtain ⟨place, opens, led⟩ := exists_opens_of_readIndex read found
  constructor
  · intro missing
    exact opens.exists_deletes found (takeConfig_missing missing) (by simp) led rfl missing
  intro config content mode located there
  have refused (noText : ∀ text, content ≠ .text text) :
      r.delete name fs = .error (.io .invalidData) fs :=
    opens.delete_refused found (takeConfig_binary located there noText)
  refine ⟨?_, refused⟩
  cases content with
  | binary octets invalid =>
    have refused := refused (by simp)
    constructor
    · rintro ⟨fs', deletes⟩
      exact absurd (refused.symm.trans deletes.answer) (by simp)
    · rintro ⟨⟨_, same⟩, _⟩
      simp at same
  | text old =>
    by_cases met : place = config
    · subst met
      rw [opens.exists_deletes_index_iff found led located there]
      simp [led]
    · have apart : locate fs .node r.indexPath ≠ .ok config := fun led' =>
        met (Except.ok.inj (led.symm.trans led'))
      have deletes := opens.exists_deletes_text found led located there met
      simp [deletes, apart]

/-- The record of the template in `demoFiles`. -/
def demoRecord : Record := (Origin.mk [] "t".toList []).record demoName (some .epoch)

/-- The same files with other bytes in the config file of the template. -/
def damagedFiles (content : Octets) : FileSystem :=
  demoFiles.put [.text "demo.json".toList, .text "t".toList] (.file content configFileMode)

/-- A template whose config file breaks off is deleted and given out as an empty one. -/
theorem delete_damaged_iff_broken :
    ∃ index fs', homeRegistry.readIndex (damagedFiles (.text "[".toList))
        = .ok index (damagedFiles (.text "[".toList))
      ∧ index.get? demoName = some demoRecord
      ∧ homeRegistry.Deletes demoName demoRecord .empty index (damagedFiles (.text "[".toList))
        fs' := by
  obtain ⟨index, fs₁, read, found⟩ : ∃ index fs₁,
      homeRegistry.readIndex (damagedFiles (.text "[".toList)) = .ok index fs₁
        ∧ index.get? demoName = some demoRecord := by
    decide +kernel
  obtain ⟨indexed, rfl⟩ := readIndex_ok_iff.1 read
  have located : locate (damagedFiles (.text "[".toList)) .entry demoRecord.configFile
      = .ok [.text "demo.json".toList, .text "t".toList] := by
    decide +kernel
  have there : (damagedFiles (.text "[".toList)).get? [.text "demo.json".toList, .text "t".toList]
      = some (.file (.text "[".toList) configFileMode) := by
    decide +kernel
  have elsewhere : locate (damagedFiles (.text "[".toList)) .node homeRegistry.indexPath
      ≠ .ok [.text "demo.json".toList, .text "t".toList] := by
    decide +kernel
  obtain ⟨fs', deletes⟩ := ((delete_damaged_iff read found).2 _ _ _ located there).1.2
    ⟨⟨_, rfl⟩, fun led => absurd led elsewhere⟩
  exact ⟨index, fs', read, found, deletes⟩

/-- Bytes that are no text in a config file stop the deletion, and the template stays. -/
theorem exists_delete_refused :
    ∃ index config content mode, homeRegistry.readIndex (damagedFiles content)
        = .ok index (damagedFiles content)
      ∧ index.get? demoName = some demoRecord
      ∧ locate (damagedFiles content) .entry demoRecord.configFile = .ok config
      ∧ (damagedFiles content).get? config = some (.file content mode)
      ∧ (homeRegistry.delete demoName).answer (damagedFiles content) = .error (.io .invalidData)
      ∧ ¬ ∃ t fs', homeRegistry.Deletes demoName demoRecord t index (damagedFiles content) fs' := by
  let content : Octets := .binary [0xFF, 0xFE] (by decide +kernel)
  obtain ⟨index, fs₁, read, found⟩ : ∃ index fs₁,
      homeRegistry.readIndex (damagedFiles content) = .ok index fs₁
        ∧ index.get? demoName = some demoRecord := by
    decide +kernel
  obtain ⟨indexed, rfl⟩ := readIndex_ok_iff.1 read
  have refused : (homeRegistry.delete demoName).answer (damagedFiles content)
      = .error (.io .invalidData) := by
    decide +kernel
  refine ⟨index, _, content, configFileMode, read, found,
    (by decide +kernel : _ = Except.ok [.text "demo.json".toList, .text "t".toList]),
    by decide +kernel, refused, ?_⟩
  rintro ⟨t, fs', deletes⟩
  simp [Action.answer_of_ok deletes.answer] at refused

end FiledRegistry

end Scaffold
