import Scaffold.Proofs.Capture.Scan

/-!
# Entries that are rendered as they stand

With values that give every token its own written form, an entry of a project is rendered
to the names and the content that it was described with. So the entries fit beside each
other as the nodes do that they show, and the tree that is written is the one that was
scanned.
-/

namespace Scaffold

open FileSystem Placeholder Instantiation

variable {fs fs' fs₁ : FileSystem} {root dest : Place} {names above : List Name} {x : Node}
  {t : Text} {e : Entry} {entries : List Entry} {values : Values} {target : Path}

/-- The value of every token that occurs in the project is the token as it is written. -/
def Restores (values : Values) (fs : FileSystem) (root : Place) : Prop :=
  ∀ a, Occurs fs root a → values.get? a.name = some (token a)

/-! ## Names -/

theorem isPathComponent_of_isStep (step : IsStep t) (noBackslash : '\\' ∉ t) :
    isPathComponent t = true := by
  have notIdle := step.notIdle
  simp only [Path.isIdle, Bool.or_eq_false_iff, decide_eq_false_iff_not] at notIdle
  have chars : ∀ c ∈ t, ¬c = '/' ∧ ¬c = '\\' ∧ ¬c = '\x00' := fun c mem =>
    ⟨fun eq => step.word.2 (eq ▸ mem), fun eq => noBackslash (eq ▸ mem),
      fun eq => step.noNul (eq ▸ mem)⟩
  simpa [isPathComponent, notIdle.1, notIdle.2, step.notUp, and_assoc] using chars

/-- The components of the path of the directory that holds a node. -/
theorem components_parentPath (steps : ∀ t ∈ texts above, IsStep t) :
    Path.components (Scan.parentPath above)
      = (if above = [] then [.here] else []) ++ (texts above).map .name := by
  by_cases none : above = []
  · subst none
    rfl
  have nonempty : texts above ≠ [] := by simpa [texts] using none
  have segs : Path.segments (Text.joinWith '/' (texts above)) = texts above :=
    Path.segments_joinWith nonempty fun t mem => (steps t mem).word.2
  have inner : Path.inner (Text.joinWith '/' (texts above)) = (texts above).map .name := by
    rw [Path.inner, segs, ← List.filterMap_eq_map]
    refine List.filterMap_congr fun t mem => ?_
    simp [Path.component?, (steps t mem).notIdle, (steps t mem).notUp]
  have front : Path.front (Text.joinWith '/' (texts above)) = [] := by
    obtain ⟨t, more, first⟩ := List.exists_cons_of_ne_nil nonempty
    have step := steps t (by simp [first])
    have notHere : t ≠ ['.'] := by
      rintro rfl
      simpa [Path.isIdle] using step.notIdle
    rw [Path.front, Path.isAbsolute_eq, segs, first]
    simp [step.word.1, notHere]
  rw [Scan.parentPath, if_neg none, if_neg none, List.nil_append, relativePath, Path.components_eq]
  change Path.front (Text.joinWith '/' (texts above)) ++ Path.inner (Text.joinWith '/' (texts above)) = _
  rw [front, inner, List.nil_append]

/-- What keeps names and drops the dot of the root leaves the names. -/
theorem filter_components_parentPath {p : Path.Component → Bool} (here : p .here = false)
    (name : ∀ t, p (.name t) = true) (steps : ∀ t ∈ texts above, IsStep t) :
    (Path.components (Scan.parentPath above)).filter p = (texts above).map .name := by
  have names : ((texts above).map Path.Component.name).filter p = (texts above).map .name := by
    rw [List.filter_eq_self]
    intro c mem
    obtain ⟨t, _, rfl⟩ := List.mem_map.1 mem
    exact name t
  rw [components_parentPath steps, List.filter_append, names]
  split <;> simp [here]

theorem withoutDots_parentPath (steps : ∀ t ∈ texts above, IsStep t) :
    (Path.components (Scan.parentPath above)).filter (· ≠ .here) = (texts above).map .name :=
  filter_components_parentPath (by simp) (by simp) steps

namespace Plan

theorem map_renderComponent_of_spellsOut {ts : List Text}
    (spelled : ∀ t ∈ ts, SpellsOut values t ∧ isPathComponent t = true) :
    ts.map (renderComponent values) = ts.map .ok := by
  refine List.map_congr_left fun t mem => ?_
  obtain ⟨out, component⟩ := spelled t mem
  exact renderComponent_ok_iff.2 ⟨render_of_spellsOut out, component⟩

end Plan

section

variable (project : IsProject fs root) (restores : Restores values fs root)

include project restores

/-- A name on the way to a node is rendered as it stands. -/
private theorem spellsOut_of_mem (found : fs.get? (names ++ root) = some x) (mem : .text t ∈ names) :
    SpellsOut values t ∧ isPathComponent t = true := by
  have portable := project.nodes names x (List.ne_nil_of_mem mem) found
  obtain ⟨_, same, noBackslash⟩ := portable.text _ mem
  obtain rfl := Octets.text.inj same
  have step := (isStep_of_mem found (List.mem_append_left root mem)).1
  exact ⟨fun a spelled => restores a (occurs_of_mem found mem spelled),
    isPathComponent_of_isStep step noBackslash⟩

/-- The entry of a node is rendered to the names of the node. -/
theorem Depicts.renderNames_eq (h : Depicts fs root names e) :
    Plan.renderNames values e = .ok (texts names) := by
  obtain ⟨some, x, found, entry⟩ := h
  have portable := project.nodes names x some found
  obtain ⟨above, rfl, parent⟩ := entry.names
  have spelled : ∀ t ∈ texts (.text e.name :: above),
      SpellsOut values t ∧ isPathComponent t = true := by
    intro t mem
    obtain ⟨name, reversed, rfl⟩ := List.mem_map.1 mem
    have mem := List.mem_reverse.1 reversed
    exact spellsOut_of_mem project restores found (by rwa [portable.areTexts.text_lossy mem])
  have rendered := Plan.map_renderComponent_of_spellsOut spelled
  rw [texts_cons] at spelled rendered ⊢
  have steps : ∀ t ∈ texts above, IsStep t := fun t mem =>
    isStep_of_isPathComponent (spelled t (List.mem_append_left _ mem)).2
  exact Plan.renderNames_ok_iff.2 ⟨texts above, parent ▸ withoutDots_parentPath steps, rendered⟩

omit project in
/-- The content of a file is rendered as it stands. -/
theorem IsEntryOf.renderContent_eq (some : names ≠ []) (found : fs.get? (names ++ root) = .some x)
    (h : IsEntryOf names x e) : Plan.renderContent values e = .ok (e.content.getD []) := by
  rcases h.node with ⟨kind, none, _⟩ | ⟨kind, content, known, isFile⟩
  · rw [Plan.renderContent_of_none fun _ => none, none, Option.getD_none]
  · have spelled : SpellsOut values content := fun a spelled =>
      restores a ⟨names, x, some, found, .inr ⟨content, _, isFile, spelled⟩⟩
    rw [Plan.renderContent_of_file kind known, renderLines_of_spellsOut spelled, known,
      Option.getD_some]

end

/-! ## Trees -/

theorem texts_inj {names more : List Name} (h : AreTexts names) (h' : AreTexts more)
    (same : texts names = texts more) : names = more := by
  have place := congrArg (placeOf []) same
  rwa [placeOf_texts h, placeOf_texts h', List.append_nil, List.append_nil] at place

theorem Depicts.areTexts (project : IsProject fs root) (h : Depicts fs root names e) :
    AreTexts names := by
  obtain ⟨some, x, found, _⟩ := h
  exact (project.nodes names x some found).areTexts

/-- Below the target no path of the project is too long. -/
def FitsUnder (fs : FileSystem) (root : Place) (target : Path) : Prop :=
  ∀ names x, names ≠ [] → fs.get? (names ++ root) = some x →
    Text.fits maxPathLength ((texts names).foldl Path.join target) = true

instance : Decidable (FitsUnder fs root target) :=
  decidable_of_iff (∀ v ∈ nodesBelow fs root,
      Text.fits maxPathLength ((texts v.1).foldl Path.join target) = true)
    ⟨fun h _ _ some found => h _ (mem_nodesBelow.2 ⟨some, found⟩),
      fun h v mem => (mem_nodesBelow.1 mem).elim (h v.1 v.2)⟩

section

variable (project : IsProject fs root) (restores : Restores values fs root)
  (shows : Shows fs root entries)

include project restores shows

/-- The entries fit beside each other as the nodes do. -/
theorem Shows.fits (short : FitsUnder fs root target) : Fits values target entries := by
  refine ⟨fun e mem => ?_, shows.once.imp ?_, fun e mem e' mem' kind ns more rendered behind => ?_⟩
  · obtain ⟨names, depicts⟩ := shows.depicts e mem
    have rendered := depicts.renderNames_eq project restores
    have areTexts := depicts.areTexts project
    obtain ⟨some, x, found, entry⟩ := depicts
    have lengths := isStep_of_mem_texts found areTexts
    exact ⟨texts names, _, rendered,
      entry.renderContent_eq restores some found, fun t mem => (lengths t mem).2,
      short names x some found⟩
  · rintro e e' ⟨names, names', differ, depicts, depicts'⟩ same
    rw [depicts.renderNames_eq project restores, depicts'.renderNames_eq project restores] at same
    exact differ (texts_inj (depicts.areTexts project) (depicts'.areTexts project)
      (Except.ok.inj same))
  · obtain ⟨names, depicts⟩ := shows.depicts e mem
    obtain ⟨names', depicts'⟩ := shows.depicts e' mem'
    rw [depicts.renderNames_eq project restores, Except.ok.injEq] at rendered
    rw [depicts'.renderNames_eq project restores, ← rendered, Except.ok.injEq] at behind
    have place : names' ++ root = (more.map Octets.text).reverse ++ (names ++ root) := by
      rw [← placeOf_texts (depicts'.areTexts project), behind, placeOf_append,
        placeOf_texts (depicts.areTexts project), placeOf]
    obtain ⟨_, x, found, entry⟩ := depicts
    obtain ⟨_, y, found', _⟩ := depicts'
    by_contra deeper
    rw [place] at found'
    have isDir := isDirectoryAt_of_append found' (by simpa using deeper)
    rcases entry.node with ⟨directory, _⟩ | ⟨_, _, _, rfl⟩
    · simp [kind] at directory
    · simp [isDirectoryAt, found, Node.isDirectory] at isDir

/-- The tree that the entries say is the one that they show. -/
theorem Shows.get?_of_holds (holds : Holds values entries dest fs₁ fs') (some : names ≠ []) :
    fs'.get? (names ++ dest) = fs.get? (names ++ root) := by
  have written {names : List Name} {x : Node} (some : names ≠ [])
      (found : fs.get? (names ++ root) = .some x) : fs'.get? (names ++ dest) = .some x := by
    obtain ⟨e, mem, depicts⟩ := shows.all names x some found
    have rendered := depicts.renderNames_eq project restores
    rw [← placeOf_texts (depicts.areTexts project)]
    obtain ⟨_, y, found', entry⟩ := depicts
    obtain rfl := Option.some.inj (found.symm.trans found')
    have content := entry.renderContent_eq restores some found
    rcases entry.node with ⟨kind, _, rfl⟩ | ⟨kind, text, known, rfl⟩
    · exact holds.directories e mem kind _ rendered
    · rw [known, Option.getD_some] at content
      exact holds.files e mem kind _ _ rendered content
  cases found : fs.get? (names ++ root) with
  | some x => exact written some found
  | none =>
    -- what stands there is on the way to an entry, and so the node was there before
    by_contra there
    obtain ⟨x, there⟩ := Option.ne_none_iff_exists'.1 there
    obtain ⟨e, mem, ns, more, nonempty, rendered, place⟩ :=
      holds.only (names ++ dest) x ⟨names, some, rfl⟩ there
    obtain ⟨names', depicts⟩ := shows.depicts e mem
    rw [depicts.renderNames_eq project restores, Except.ok.injEq] at rendered
    have way : names' ++ root = (more.map Octets.text).reverse ++ (names ++ root) := by
      have whole := placeOf_texts (depicts.areTexts project) root
      rw [rendered, placeOf_append] at whole
      have here : placeOf root ns = names ++ root := by
        have cut : names = (ns.map Octets.text).reverse := List.append_cancel_right place
        rw [cut, placeOf]
      rw [← whole, here, placeOf]
    obtain ⟨_, y, found', _⟩ := depicts
    rw [way] at found'
    by_cases last : more = []
    · simp [last, found] at found'
    · have isDir := isDirectoryAt_of_append found' (by simpa using last)
      simp [isDirectoryAt, found] at isDir

end

end Scaffold
