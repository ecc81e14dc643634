import Scaffold.Command.Basic
import Scaffold.Proofs.Capture.Captured
import Scaffold.Proofs.Capture.Shape
import Scaffold.Proofs.Instantiation.Writing

/-!
# What a capture depends on

The template of a directory without links is decided by the nodes below it that no pattern
hides, and it decides them. So a directory that is captured twice gives the same template
exactly if every visible node has stayed as it was, whatever else was done to the files.
-/

namespace Scaffold

open FileSystem

variable {fs fs' : FileSystem} {root : Place} {ps : IgnorePatterns} {names names' : List Name}
  {x x' : Node} {e e' : Entry} {entries entries' : List Entry} {mode mode' : Mode} {t : Template}
  {settings settings' : Settings} {ignore : List Text}

/-- Below the root the same is found under all names that no pattern hides. -/
def SameVisible (ps : IgnorePatterns) (root : Place) (fs fs' : FileSystem) : Prop :=
  ∀ names, names ≠ [] → Scan.isVisible ps names = true →
    fs'.get? (names ++ root) = fs.get? (names ++ root)

instance : Decidable (SameVisible ps root fs fs') :=
  decidable_of_iff (∀ v ∈ nodesBelow fs root ++ nodesBelow fs' root,
      Scan.isVisible ps v.1 = true → fs'.get? (v.1 ++ root) = fs.get? (v.1 ++ root)) (by
    constructor
    · intro same names some visible
      cases found : fs.get? (names ++ root) with
      | some x =>
        rw [← found]
        exact same (names, x) (List.mem_append_left _ (mem_nodesBelow.2 ⟨some, found⟩)) visible
      | none =>
        cases found' : fs'.get? (names ++ root) with
        | none => rfl
        | some x' =>
          rw [← found, ← found']
          exact same (names, x') (List.mem_append_right _ (mem_nodesBelow.2 ⟨some, found'⟩)) visible
    · intro same v mem visible
      obtain here | here := List.mem_append.1 mem
      · exact same v.1 (mem_nodesBelow.1 here).1 visible
      · exact same v.1 (mem_nodesBelow.1 here).1 visible)

/-! ## Entries of nodes that are no links -/

namespace Scan

/-- A node that is no link has the same description wherever it is found. -/
theorem describe_congr (found : fs.get? (names ++ root) = some x)
    (found' : fs'.get? (names ++ root) = some x) (notLink : ∀ path, x ≠ .link path) :
    describe fs' root names = describe fs root names := by
  cases names with
  | nil => rfl
  | cons name above =>
    cases name with
    | binary => rfl
    | text t =>
      have same : FileSystem.target fs' ((.text t :: above) ++ root)
          = FileSystem.target fs ((.text t :: above) ++ root) := by
        by_cases short : Text.fits maxPathLength (pathOf ((.text t :: above) ++ root)) = true
        · exact (target_eq found' notLink short).trans (target_eq found notLink short).symm
        · simp only [List.cons_append] at short ⊢
          simp [FileSystem.target, short]
      simp only [describe, same]

/-- What is described is the node itself if it is no link. -/
theorem isEntryOf_of_describe (found : fs.get? (names ++ root) = some x)
    (notLink : ∀ path, x ≠ .link path) (h : describe fs root names = .ok (some e)) :
    IsEntryOf names x e := by
  obtain ⟨parts, mode, bits, kind⟩ := isDescribedBy_of_describe found h
  have met {y : Node} (isMet : IsMet fs (names ++ root) y) : x = y := by
    rcases isMet with here | ⟨path, link, _⟩
    · exact Option.some.inj (found.symm.trans here)
    · exact absurd (Option.some.inj (found.symm.trans link)) (notLink path)
  have same : e.mode = mode := by rw [Entry.mode, bits, Mode.ofBits_toBits]
  refine ⟨parts, ?_⟩
  rw [same]
  rcases kind with ⟨isMet, isDir, none⟩ | ⟨content, isMet, isFile, known⟩
  · exact .inl ⟨isDir, none, met isMet⟩
  · exact .inr ⟨isFile, content, known, met isMet⟩

end Scan

/-- The names of its node are the path of an entry. -/
theorem IsEntryOf.path_eq (h : IsEntryOf names x e) (steps : ∀ t ∈ texts names, IsStep t) :
    e.path = relativePath names := by
  obtain ⟨above, rfl, parent⟩ := h.names
  rw [texts_cons] at steps
  rw [Entry.path, parent]
  exact joinRelative_parentPath (fun t mem => steps t (List.mem_append_left _ mem))
    (steps e.name (List.mem_append_right _ (List.mem_singleton.2 rfl)))

/-- An entry is that of one node. -/
theorem IsEntryOf.node_inj (h : IsEntryOf names x e) (h' : IsEntryOf names' x' e) : x' = x := by
  rcases h.node with ⟨isDir, _, rfl⟩ | ⟨isFile, content, known, rfl⟩
  · rcases h'.node with ⟨_, _, rfl⟩ | ⟨isFile, _⟩
    · rfl
    · simp [isDir] at isFile
  · rcases h'.node with ⟨isDir, _⟩ | ⟨_, content', known', rfl⟩
    · simp [isFile] at isDir
    · rw [Option.some.inj (known'.symm.trans known)]

/-- An entry has the names of one node. -/
theorem IsEntryOf.names_inj (h : IsEntryOf names x e) (h' : IsEntryOf names' x' e)
    (found : fs.get? (names ++ root) = some x) (found' : fs'.get? (names' ++ root) = some x')
    (areTexts : AreTexts names) (areTexts' : AreTexts names') : names' = names := by
  have steps : ∀ t ∈ texts names, IsStep t :=
    fun t mem => (isStep_of_mem_texts found areTexts t mem).1
  have steps' : ∀ t ∈ texts names', IsStep t :=
    fun t mem => (isStep_of_mem_texts found' areTexts' t mem).1
  obtain ⟨_, some, _⟩ := h.names
  obtain ⟨_, some', _⟩ := h'.names
  exact relativePath_inj areTexts' areTexts steps' steps (by simp [some']) (by simp [some])
    ((h'.path_eq steps').symm.trans (h.path_eq steps))

/-! ## Scans -/

/-- The place is that of a directory that has a path of its own and no link below it. -/
structure IsPlainDirectory (fs : FileSystem) (root : Place) : Prop where
  there : fs.isDirectoryAt root = true
  above : AreTexts root
  short : Text.fits maxPathLength (pathOf root) = true
  noLink : NoLinkBelow fs root

theorem IsProject.isPlainDirectory (h : IsProject fs root) : IsPlainDirectory fs root where
  there := isDirectoryAt_of_get? h.directory.choose_spec
  above := h.above
  short := h.short
  noLink := by
    rintro _ target ⟨names, some, rfl⟩ found
    rcases (h.nodes names _ some found).kind with ⟨mode, isDir⟩ | ⟨content, mode, isFile⟩
    · simp at isDir
    · simp at isFile

namespace IsPlainDirectory

theorem scan_eq (h : IsPlainDirectory fs root) (ps : IgnorePatterns) :
    scan fs ps (pathOf root) = Scan.describeAll fs root (Scan.visits fs root ps) := by
  obtain ⟨mode, there⟩ := get?_of_isDirectoryAt h.there
  exact scan_of_lookup (lookup_pathOf h.above there h.short) h.short

theorem notLink (h : IsPlainDirectory fs root) (some : names ≠ [])
    (found : fs.get? (names ++ root) = .some x) (path : Path) : x ≠ .link path := by
  rintro rfl
  exact h.noLink _ path ⟨names, some, rfl⟩ found

/-- Every visible node has an entry in a scan that succeeds. -/
theorem exists_entry (h : IsPlainDirectory fs root)
    (scanned : scan fs ps (pathOf root) = .ok entries) (some : names ≠ [])
    (visible : Scan.isVisible ps names = true) (found : fs.get? (names ++ root) = .some x) :
    ∃ e ∈ entries, IsEntryOf names x e ∧ AreTexts names := by
  rw [h.scan_eq] at scanned
  obtain ⟨made, all⟩ := Scan.describeAll_ok scanned
  have visited := Scan.mem_visits.2 ⟨⟨some, found⟩, visible⟩
  obtain ⟨described, here⟩ := all _ visited
  cases described with
  | none =>
    obtain ⟨⟨path, link⟩, _⟩ := (Scan.describe_none_iff found some here).1 rfl
    exact absurd link (h.notLink some found path)
  | some e =>
    have placed := Scan.mem_placedOf.2 ⟨⟨x, visited⟩, here⟩
    exact ⟨e, made ▸ List.mem_map_of_mem placed,
      Scan.isEntryOf_of_describe found (h.notLink some found) here,
      Scan.areTexts_of_visits all _ visited⟩

/-- Every entry of a scan that succeeds is that of a node. -/
theorem exists_node (h : IsPlainDirectory fs root)
    (scanned : scan fs ps (pathOf root) = .ok entries) (mem : e ∈ entries) :
    ∃ names x, fs.get? (names ++ root) = some x ∧ IsEntryOf names x e ∧ AreTexts names := by
  rw [h.scan_eq] at scanned
  obtain ⟨rfl, all⟩ := Scan.describeAll_ok scanned
  obtain ⟨⟨names, e⟩, placed, rfl⟩ := List.mem_map.1 mem
  obtain ⟨⟨x, visited⟩, here⟩ := Scan.mem_placedOf.1 placed
  obtain ⟨some, found⟩ := (Scan.mem_visits.1 visited).1
  exact ⟨names, x, found, Scan.isEntryOf_of_describe found (h.notLink some found) here,
    Scan.areTexts_of_visits all _ visited⟩

/-- A scan gives the same entries if what is visible is the same. -/
theorem scan_congr (h : IsPlainDirectory fs root) (h' : IsPlainDirectory fs' root)
    (same : SameVisible ps root fs fs') (scanned : scan fs ps (pathOf root) = .ok entries) :
    scan fs' ps (pathOf root) = .ok entries := by
  rw [h.scan_eq] at scanned
  obtain ⟨_, all⟩ := Scan.describeAll_ok scanned
  rw [h'.scan_eq, Scan.visits_congr same, ← scanned]
  refine Scan.describeAll_congr fun v mem => ?_
  obtain ⟨⟨some, found⟩, visible⟩ := Scan.mem_visits.1 mem
  exact Scan.describe_congr found ((same v.1 some visible).trans found) (h.notLink some found)

/-- What one scan shows is there for another one with the same entries. -/
theorem get?_of_scan (h : IsPlainDirectory fs root) (h' : IsPlainDirectory fs' root)
    (scanned : scan fs ps (pathOf root) = .ok entries)
    (scanned' : scan fs' ps (pathOf root) = .ok entries')
    (same : entries.map Entry.withArgumentNames = entries'.map Entry.withArgumentNames)
    (some : names ≠ []) (visible : Scan.isVisible ps names = true)
    (found : fs.get? (names ++ root) = .some x) : fs'.get? (names ++ root) = .some x := by
  obtain ⟨e, mem, entry, areTexts⟩ := h.exists_entry scanned some visible found
  obtain ⟨e', mem', eq⟩ := List.mem_map.1 (same ▸ List.mem_map_of_mem mem)
  obtain ⟨names', x', found', entry', areTexts'⟩ := h'.exists_node scanned' mem'
  have entry := entry.withArgumentNames
  have entry' := entry'.withArgumentNames
  rw [eq] at entry'
  obtain rfl := entry.names_inj entry' found found' areTexts areTexts'
  rw [found', entry.node_inj entry']

/-- If two scans give the same entries, what is visible is the same. -/
theorem sameVisible_of_scan (h : IsPlainDirectory fs root) (h' : IsPlainDirectory fs' root)
    (scanned : scan fs ps (pathOf root) = .ok entries)
    (scanned' : scan fs' ps (pathOf root) = .ok entries')
    (same : entries.map Entry.withArgumentNames = entries'.map Entry.withArgumentNames) :
    SameVisible ps root fs fs' := by
  intro names some visible
  cases found : fs.get? (names ++ root) with
  | some x => exact h.get?_of_scan h' scanned scanned' same some visible found
  | none =>
    cases found' : fs'.get? (names ++ root) with
    | none => rfl
    | some x =>
      have back := h'.get?_of_scan h scanned' scanned same.symm some visible found'
      simp [found] at back

end IsPlainDirectory

/-! ## Captures -/

namespace Command

theorem capture_ok_iff {path : Path} : capture settings path ignore fs = .ok t
    ↔ ∃ ps entries, IgnorePatterns.compile (settings.ignore ++ ignore) = .ok ps
      ∧ scan fs ps path = .ok entries ∧ Template.ofEntries entries = .ok t := by
  unfold capture
  cases compiled : IgnorePatterns.compile (settings.ignore ++ ignore) with
  | error e => simp
  | ok ps =>
    cases scanned : scan fs ps path with
    | error e => simp [scanned]
    | ok entries => simp [scanned]

theorem isCaptured_of_capture {path : Path} (h : capture settings path ignore fs = .ok t) :
    t.IsCaptured := by
  obtain ⟨ps, entries, _, scanned, made⟩ := capture_ok_iff.1 h
  exact ⟨fs, ps, path, entries, scanned, made⟩

/-- A directory is captured again with the same template exactly if what is visible below it
is the same. -/
theorem capture_again_iff (h : IsPlainDirectory fs root) (h' : IsPlainDirectory fs' root)
    (compiled : IgnorePatterns.compile (settings.ignore ++ ignore) = .ok ps)
    (captured : capture settings (pathOf root) ignore fs = .ok t)
    (same : settings'.ignore = settings.ignore) :
    capture settings' (pathOf root) ignore fs' = .ok t ↔ SameVisible ps root fs fs' := by
  obtain ⟨ps', entries, compiled', scanned, made⟩ := capture_ok_iff.1 captured
  obtain rfl := Except.ok.inj (compiled'.symm.trans compiled)
  constructor
  · intro again
    obtain ⟨ps₂, entries', compiled₂, scanned', made'⟩ := capture_ok_iff.1 again
    rw [same] at compiled₂
    obtain rfl := Except.ok.inj (compiled₂.symm.trans compiled)
    refine h.sameVisible_of_scan h' scanned scanned' ?_
    rw [← (Template.ofEntries_ok made).2, (Template.ofEntries_ok made').2]
  · intro visible
    exact capture_ok_iff.2 ⟨ps', entries, same ▸ compiled, h.scan_congr h' visible scanned, made⟩

end Command

end Scaffold
