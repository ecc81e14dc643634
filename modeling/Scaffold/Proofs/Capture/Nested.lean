import Scaffold.Proofs.Argument.Collect
import Scaffold.Proofs.Capture.Rendered

/-!
# Every entry behind its directory

A scan describes a directory before it describes what is in it, and it leaves out what is in
a directory that it leaves out. So in the list of entries, each entry that is not at the
root stands behind the directory entry of its parent path, whatever is ignored and wherever
links lead. The list is built from the front: each entry that is added refers only to
entries that are there.
-/

namespace Scaffold

open FileSystem

/-! ## Paths of names -/

namespace Text

theorem joinWith_append_cons (sep : Char) (a b : Text) (pieces : List Text) :
    joinWith sep ((a ++ sep :: b) :: pieces) = a ++ sep :: joinWith sep (b :: pieces) := by
  cases pieces <;> simp [joinWith]

end Text

namespace Path

variable {ts : List Text} {p : Path} {t : Text}

private theorem foldl_join_of_isOpen (words : ∀ t ∈ ts, IsWord t) (hp : IsOpen p) :
    ts.foldl join p = Text.joinWith '/' (p :: ts) := by
  induction ts generalizing p with
  | nil => rfl
  | cons t ts ih =>
    have word := words t List.mem_cons_self
    have joined : join p t = p ++ '/' :: t := by
      simp [join, word.not_absolute, hp.1, hp.2]
    have more : ∀ t ∈ ts, IsWord t := fun t mem => words t (List.mem_cons_of_mem _ mem)
    rw [List.foldl_cons, ih more (isOpen_join p word), joined, Text.joinWith_append_cons]
    rfl

/-- Words that are joined to nothing are joined by slashes. -/
theorem foldl_join_nil (words : ∀ t ∈ ts, IsWord t) : ts.foldl join [] = Text.joinWith '/' ts := by
  cases ts with
  | nil => rfl
  | cons t ts =>
    rw [List.foldl_cons]
    have isOpen := isOpen_join [] (words t List.mem_cons_self)
    rw [join_empty] at isOpen ⊢
    exact foldl_join_of_isOpen (fun t mem => words t (List.mem_cons_of_mem _ mem)) isOpen

end Path

variable {names above : List Name} {t : Text}

theorem relativePath_eq (names : List Name) :
    relativePath names = Text.joinWith '/' (texts names) :=
  rfl

/-- Names that are steps are told apart by the path that they make. -/
theorem relativePath_inj {more : List Name} (areTexts : AreTexts names) (areTexts' : AreTexts more)
    (steps : ∀ t ∈ texts names, IsStep t) (steps' : ∀ t ∈ texts more, IsStep t)
    (some : names ≠ []) (some' : more ≠ []) (same : relativePath names = relativePath more) :
    names = more := by
  have segments {ns : List Name} (some : ns ≠ []) (steps : ∀ t ∈ texts ns, IsStep t) :
      Path.segments (relativePath ns) = texts ns :=
    Path.segments_joinWith (by simpa [texts] using some) fun t mem => (steps t mem).word.2
  refine texts_inj areTexts areTexts' ?_
  rw [← segments some steps, ← segments some' steps', same]

/-- The path of an entry is that of its names. -/
theorem joinRelative_parentPath (steps : ∀ t ∈ texts above, IsStep t) (step : IsStep t) :
    Path.joinRelative (Scan.parentPath above) t = relativePath (.text t :: above) := by
  have words : ∀ s ∈ texts above ++ [t], Path.IsWord s := by
    intro s mem
    rcases List.mem_append.1 mem with mem | last
    · exact (steps s mem).word
    · exact List.mem_singleton.1 last ▸ step.word
  rw [Path.joinRelative, Path.withoutDots, withoutDots_parentPath steps, Path.ofComponents,
    List.foldl_map, relativePath_eq, texts_cons, ← Path.foldl_join_nil words, List.foldl_append]
  rfl

/-! ## Lists of entries -/

variable {placed before after : List (List Name × Entry)} {e d : Entry}

/-- Entries with the names that lead to them, each of them new and, if it is not at the
root, behind the directory that it is in. -/
inductive Nested : List (List Name × Entry) → Prop
  | nil : Nested []
  | snoc {placed : List (List Name × Entry)} {above : List Name} {e : Entry}
      (front : Nested placed) (parent : e.parent = Scan.parentPath above) (step : IsStep e.name)
      (new : ∀ v ∈ placed, v.1 ≠ .text e.name :: above)
      (inside : above = [] ∨ ∃ d, (above, d) ∈ placed ∧ d.kind = .directory) :
      Nested (placed ++ [(.text e.name :: above, e)])

/-- The entry is in the directory with these names, which is among the entries unless it is
the root. -/
structure IsWithin (placed : List (List Name × Entry)) (above : List Name) (e : Entry) : Prop where
  parent : e.parent = Scan.parentPath above
  step : IsStep e.name
  areTexts : AreTexts above
  steps : ∀ t ∈ texts above, IsStep t
  inside : above = [] ∨ ∃ d, (above, d) ∈ placed ∧ d.kind = .directory

namespace IsWithin

theorem mono (h : IsWithin placed above e) (part : placed ⊆ after) : IsWithin after above e :=
  ⟨h.parent, h.step, h.areTexts, h.steps, h.inside.imp_right fun ⟨d, mem, kind⟩ =>
    ⟨d, part mem, kind⟩⟩

theorem areTexts_names (h : IsWithin placed above e) : AreTexts (.text e.name :: above) :=
  h.areTexts.cons e.name

theorem steps_names (h : IsWithin placed above e) :
    ∀ t ∈ texts (.text e.name :: above), IsStep t := by
  intro t mem
  rw [texts_cons] at mem
  rcases List.mem_append.1 mem with mem | last
  · exact h.steps t mem
  · exact List.mem_singleton.1 last ▸ h.step

theorem path_eq (h : IsWithin placed above e) : e.path = relativePath (.text e.name :: above) := by
  rw [Entry.path, h.parent, joinRelative_parentPath h.steps h.step]

/-- The parent path of an entry that is not at the root is the path of a directory entry. -/
theorem parent_eq (h : IsWithin placed above e) (deep : e.parent ≠ ['.']) :
    above ≠ [] ∧ e.parent = relativePath above := by
  have some : above ≠ [] := by
    rintro rfl
    exact deep h.parent
  exact ⟨some, by rw [h.parent, Scan.parentPath, if_neg some]⟩

end IsWithin

namespace Nested

theorem of_append (h : Nested (before ++ after)) : Nested before := by
  induction after using List.reverseRecOn with
  | nil => simpa using h
  | append_singleton after v ih =>
    rw [← List.append_assoc] at h
    generalize whole : before ++ after ++ [v] = placed at h
    cases h with
    | nil => simp at whole
    | snoc front =>
      obtain ⟨rfl, _⟩ := List.append_inj' whole rfl
      exact ih front

/-- Each entry is in the directory that its names say. -/
theorem exists_isWithin (h : Nested placed) (mem : (names, e) ∈ placed) :
    ∃ above, names = .text e.name :: above ∧ IsWithin placed above e := by
  induction h generalizing names e with
  | nil => simp at mem
  | @snoc placed above e' _ parent step _ inside ih =>
    rcases List.mem_append.1 mem with mem | last
    · obtain ⟨above, eq, within⟩ := ih mem
      exact ⟨above, eq, within.mono (List.subset_append_left _ _)⟩
    · rw [List.mem_singleton, Prod.mk.injEq] at last
      obtain ⟨rfl, rfl⟩ := last
      refine ⟨above, rfl, IsWithin.mono ?_ (List.subset_append_left _ _)⟩
      rcases inside with rfl | ⟨d, there, kind⟩
      · exact ⟨parent, step, areTexts_nil, by simp [texts], .inl rfl⟩
      · obtain ⟨_, rfl, within⟩ := ih there
        exact ⟨parent, step, within.areTexts_names, within.steps_names, .inr ⟨d, there, kind⟩⟩

/-- The directory of an entry stands in front of it. -/
theorem exists_isWithin_front (h : Nested (before ++ (names, e) :: after)) :
    ∃ above, names = .text e.name :: above ∧ IsWithin before above e := by
  rw [List.append_cons] at h
  obtain ⟨above, rfl, within⟩ :=
    h.of_append.exists_isWithin (List.mem_append_right _ List.mem_cons_self)
  refine ⟨above, rfl, within.parent, within.step, within.areTexts, within.steps,
    within.inside.imp_right fun ⟨d, mem, kind⟩ => ⟨d, ?_, kind⟩⟩
  rcases List.mem_append.1 mem with mem | last
  · exact mem
  · have same := congrArg Prod.fst (List.mem_singleton.1 last)
    exact absurd same.symm (List.cons_ne_self _ _)

/-- No two entries have the same names. -/
theorem pairwise (h : Nested placed) : placed.Pairwise fun v v' => v.1 ≠ v'.1 := by
  induction h with
  | nil => exact .nil
  | snoc _ _ _ new _ ih =>
    refine List.pairwise_append.2 ⟨ih, List.pairwise_singleton _ _, fun v mem v' last => ?_⟩
    rw [List.mem_singleton.1 last]
    exact new v mem

/-- An entry is known by its path. -/
theorem getElem?_inj (h : Nested placed) {i j : Nat} {v v' : List Name × Entry}
    (here : placed[i]? = some v) (there : placed[j]? = some v') (same : v.2.path = v'.2.path) :
    i = j := by
  obtain ⟨_, names, within⟩ := h.exists_isWithin (List.mem_of_getElem? here)
  obtain ⟨_, names', within'⟩ := h.exists_isWithin (List.mem_of_getElem? there)
  have eq : v.1 = v'.1 := by
    rw [names, names']
    refine relativePath_inj within.areTexts_names within'.areTexts_names within.steps_names
      within'.steps_names (List.cons_ne_nil _ _) (List.cons_ne_nil _ _) ?_
    rw [← within.path_eq, same, within'.path_eq]
  have once : (placed.map Prod.fst).Nodup := List.pairwise_map.2 h.pairwise
  have inside : i < (placed.map Prod.fst).length := by
    simpa using (List.getElem?_eq_some_iff.1 here).1
  exact (List.getElem?_inj inside once).1 (by simp [here, there, eq])

/-- The directory entry of an entry that is not at the root comes before it. -/
theorem exists_earlier (h : Nested placed) {i : Nat} (here : placed[i]? = some (names, e))
    (deep : e.parent ≠ ['.']) :
    ∃ (j : Nat) (above : List Name) (d : Entry), j < i ∧ placed[j]? = some (above, d)
      ∧ d.kind = .directory ∧ d.path = e.parent ∧ IsWithin placed above e := by
  obtain ⟨inside, at'⟩ := List.getElem?_eq_some_iff.1 here
  have split : placed = placed.take i ++ (names, e) :: placed.drop (i + 1) := by
    rw [← at', ← List.drop_eq_getElem_cons inside, List.take_append_drop]
  have front := h
  rw [split] at front
  obtain ⟨above, rfl, within⟩ := front.exists_isWithin_front
  obtain ⟨some, parent⟩ := within.parent_eq deep
  obtain ⟨d, mem, isDir⟩ := within.inside.resolve_left some
  obtain ⟨j, number⟩ := List.mem_iff_getElem?.1 mem
  rw [List.getElem?_take, Option.ite_none_right_eq_some] at number
  obtain ⟨earlier, number⟩ := number
  obtain ⟨_, rfl, outer⟩ := h.exists_isWithin (List.mem_of_getElem? number)
  exact ⟨j, _, d, earlier, number, isDir, outer.path_eq.trans parent.symm,
    within.mono (List.take_subset _ _)⟩

/-- What else an entry says does not count for where it is. -/
theorem map (h : Nested placed) {f : Entry → Entry}
    (kept : ∀ e, (f e).name = e.name ∧ (f e).parent = e.parent ∧ (f e).kind = e.kind) :
    Nested (placed.map fun v => (v.1, f v.2)) := by
  induction h with
  | nil => exact .nil
  | @snoc placed above e _ parent step new inside ih =>
    obtain ⟨name, parent', _⟩ := kept e
    rw [List.map_append, List.map_singleton, ← name]
    refine ih.snoc (parent'.trans parent) (name ▸ step) ?_ ?_
    · intro v mem
      obtain ⟨u, there, rfl⟩ := List.mem_map.1 mem
      rw [name]
      exact new u there
    · refine inside.imp_right fun ⟨d, mem, kind⟩ => ⟨f d, ?_, (kept d).2.2.trans kind⟩
      exact List.mem_map_of_mem (f := fun v : List Name × Entry => (v.1, f v.2)) mem

/-- Every name above an entry is that of a directory entry. -/
theorem exists_directory (h : Nested placed) (mem : (names, e) ∈ placed) {above : List Name}
    (parts : names = .text e.name :: above) (inside : t ∈ texts above) :
    ∃ v ∈ placed, v.2.kind = .directory ∧ v.2.name = t := by
  induction above generalizing names e with
  | nil => simp [texts] at inside
  | cons name above ih =>
    obtain ⟨_, eq, within⟩ := h.exists_isWithin mem
    obtain ⟨_, rfl⟩ := List.cons.inj (parts.symm.trans eq)
    obtain ⟨d, there, kind⟩ := within.inside.resolve_left (List.cons_ne_nil _ _)
    obtain ⟨_, eq, _⟩ := h.exists_isWithin there
    obtain ⟨rfl, rfl⟩ := List.cons.inj eq
    rw [texts_cons] at inside
    rcases List.mem_append.1 inside with inside | last
    · exact ih there rfl inside
    · exact ⟨_, there, kind, (List.mem_singleton.1 last).symm⟩

end Nested

/-! ## What a scan visits -/

namespace Scan

variable {fs : FileSystem} {root : Place} {ps : IgnorePatterns} {x : Node}
  {vs front back : List (List Name × Node)} {entries : List Entry} {name : Name}

theorem pairwise_key (fs : FileSystem) (root : Place) (ps : IgnorePatterns) :
    (visits fs root ps).Pairwise fun v v' => key v.1 v.2 ≤ key v'.1 v'.2 :=
  pairwise_le_mergeSort (fun v : List Name × Node => key v.1 v.2) _

theorem key_directory (name : Name) (above : List Name) (mode : Mode) :
    key (name :: above) (.directory mode) = (name :: above).reverse.map fun n => 1 :: n.bytes := by
  simp [key, Node.isDirectory]

private theorem not_append_le (a b : List (List UInt8)) (some : b ≠ []) : ¬ a ++ b ≤ a := by
  induction a with
  | nil => simpa using some
  | cons y a ih =>
    rw [List.cons_append, List.cons_le_cons_iff]
    rintro (less | ⟨_, le⟩)
    · exact List.lt_irrefl y less
    · exact ih le

/-- The key of what is in a directory goes on behind the key of the directory. -/
theorem not_key_le {above : List Name} {mode : Mode} (some : above ≠ []) :
    ¬ key (name :: above) x ≤ key above (.directory mode) := by
  cases above with
  | nil => exact absurd rfl some
  | cons n above =>
    rw [key_directory, key]
    exact not_append_le _ _ (List.cons_ne_nil _ _)

/-- A directory is visited before what is in it. -/
theorem exists_visit_above {above : List Name}
    (h : visits fs root ps = front ++ (name :: above, x) :: back) (some : above ≠ []) :
    ∃ mode, (above, .directory mode) ∈ front := by
  have visited : (name :: above, x) ∈ visits fs root ps := by simp [h]
  obtain ⟨⟨_, found⟩, visible⟩ := mem_visits.1 visited
  obtain ⟨mode, there⟩ := get?_of_isDirectoryAt (isDirectoryAt_of_get?_cons found)
  have visibleAbove : isVisible ps above = true := by
    simp only [isVisible, Bool.and_eq_true] at visible
    exact visible.2
  have mem : (above, .directory mode) ∈ visits fs root ps :=
    mem_visits.2 ⟨⟨some, there⟩, visibleAbove⟩
  refine ⟨mode, ?_⟩
  rw [h] at mem
  rcases List.mem_append.1 mem with mem | mem
  · exact mem
  rcases List.mem_cons.1 mem with same | later
  · exact absurd (congrArg Prod.fst same).symm (List.cons_ne_self _ _)
  · have sorted := pairwise_key fs root ps
    rw [h] at sorted
    have after := (List.pairwise_append.1 sorted).2.1
    exact absurd (List.rel_of_pairwise_cons after later) (not_key_le some)

/-! ## What a scan describes -/

theorem describeAll_concat_ok {v : List Name × Node}
    (h : describeAll fs root (vs ++ [v]) = .ok entries) :
    ∃ front described, describeAll fs root vs = .ok front ∧ describe fs root v.1 = .ok described
      ∧ entries = front ++ described.toList := by
  induction vs generalizing entries with
  | nil =>
    rw [List.nil_append, describeAll] at h
    split at h
    · simp at h
    · rename_i described found
      obtain rfl : described.toList ++ [] = entries := Except.ok.inj h
      exact ⟨[], described, rfl, found, by simp⟩
  | cons u vs ih =>
    rw [List.cons_append, describeAll] at h
    split at h
    · simp at h
    · rename_i described first
      split at h
      · simp at h
      · rename_i rest others
        obtain ⟨front, last, before, found, rfl⟩ := ih others
        obtain rfl := Except.ok.inj h
        refine ⟨described.toList ++ front, last, ?_, found, by simp⟩
        simp only [describeAll, first, before]

/-- Whatever is described is an entry of its own name, in the directory that holds it. -/
theorem describe_ok (h : describe fs root names = .ok (some e)) :
    ∃ above, names = .text e.name :: above ∧ e.parent = parentPath above ∧ e.WellFormed := by
  unfold describe at h
  split at h
  · simp at h
  · simp at h
  · split at h
    · simp at h
    · simp at h
    · obtain rfl := Option.some.inj (Except.ok.inj h)
      exact ⟨_, rfl, rfl, rfl⟩
    · obtain rfl := Option.some.inj (Except.ok.inj h)
      exact ⟨_, rfl, rfl, rfl⟩
    · simp at h

/-- A directory is described, if the scan does not stop at it. -/
theorem describe_directory {mode : Mode} {described : Option Entry} (some : names ≠ [])
    (found : fs.get? (names ++ root) = .some (.directory mode))
    (h : describe fs root names = .ok described) :
    ∃ d, described = .some d ∧ d.kind = .directory := by
  unfold describe at h
  split at h
  · exact absurd rfl some
  · simp at h
  · rename_i name above
    have met (short : Text.fits maxPathLength (pathOf ((.text name :: above) ++ root)) = true) :
        FileSystem.target fs ((.text name :: above) ++ root) = .ok (.directory mode) :=
      target_eq found (by simp) short
    by_cases short : Text.fits maxPathLength (pathOf ((.text name :: above) ++ root)) = true
    · rw [met short] at h
      exact ⟨_, (Except.ok.inj h).symm, rfl⟩
    · have tooLong :
          FileSystem.target fs ((.text name :: above) ++ root) = .error .invalidFilename := by
        simp only [FileSystem.target, List.cons_append]
        simp only [List.cons_append] at short
        simp [short]
      rw [tooLong] at h
      simp at h

/-- The entries are those of the nodes that are visited, each with the names of its own, and
every directory among the nodes has one. -/
structure Enumerates (vs : List (List Name × Node)) (placed : List (List Name × Entry)) : Prop where
  nested : Nested placed
  wellFormed : ∀ p ∈ placed, p.2.WellFormed
  visited : ∀ p ∈ placed, ∃ v ∈ vs, v.1 = p.1
  directories : ∀ names mode, (names, .directory mode) ∈ vs →
    ∃ d, (names, d) ∈ placed ∧ d.kind = .directory

namespace Enumerates

theorem nil : Enumerates [] [] :=
  ⟨.nil, by simp, by simp, by simp⟩

/-- A node that is left out is no directory. -/
theorem skip (h : Enumerates vs placed) (other : ∀ mode, x ≠ .directory mode) :
    Enumerates (vs ++ [(names, x)]) placed where
  nested := h.nested
  wellFormed := h.wellFormed
  visited p mem :=
    let ⟨v, there, same⟩ := h.visited p mem
    ⟨v, List.mem_append_left _ there, same⟩
  directories names' mode mem := by
    rcases List.mem_append.1 mem with mem | last
    · exact h.directories names' mode mem
    · exact absurd (Prod.mk.inj (List.mem_singleton.1 last)).2.symm (other mode)

/-- A node that is described is new, and the directory that it is in has been visited. -/
theorem snoc (h : Enumerates vs placed) (parent : e.parent = parentPath above)
    (step : IsStep e.name) (wellFormed : e.WellFormed) (new : ∀ v ∈ vs, v.1 ≠ .text e.name :: above)
    (inside : above = [] ∨ ∃ mode, (above, .directory mode) ∈ vs)
    (kind : ∀ mode, x = .directory mode → e.kind = .directory) :
    Enumerates (vs ++ [(.text e.name :: above, x)]) (placed ++ [(.text e.name :: above, e)]) where
  nested := by
    refine h.nested.snoc parent step (fun p mem same => ?_) ?_
    · obtain ⟨v, there, eq⟩ := h.visited p mem
      exact new v there (eq.trans same)
    · exact inside.imp_right fun ⟨mode, there⟩ => h.directories above mode there
  wellFormed := List.forall_mem_append.2 ⟨h.wellFormed, List.forall_mem_singleton.2 wellFormed⟩
  visited := by
    refine List.forall_mem_append.2 ⟨fun p mem => ?_, List.forall_mem_singleton.2 ?_⟩
    · obtain ⟨v, there, same⟩ := h.visited p mem
      exact ⟨v, List.mem_append_left _ there, same⟩
    · exact ⟨_, List.mem_append_right _ List.mem_cons_self, rfl⟩
  directories names mode mem := by
    rcases List.mem_append.1 mem with mem | last
    · obtain ⟨d, there, isDir⟩ := h.directories names mode mem
      exact ⟨d, List.mem_append_left _ there, isDir⟩
    · obtain ⟨rfl, same⟩ := Prod.mk.inj (List.mem_singleton.1 last)
      exact ⟨e, List.mem_append_right _ List.mem_cons_self, kind mode same.symm⟩

end Enumerates

/-- What is visited first is enumerated, by induction from the right end: in front of each
node the directory that it is in has been visited. -/
private theorem exists_enumerates (h : describeAll fs root vs = .ok entries)
    (part : vs <+: visits fs root ps) :
    ∃ placed, placed.map Prod.snd = entries ∧ Enumerates vs placed := by
  induction vs using List.reverseRecOn generalizing entries with
  | nil =>
    obtain rfl : [] = entries := Except.ok.inj h
    exact ⟨[], rfl, .nil⟩
  | append_singleton vs v ih =>
    obtain ⟨names, x⟩ := v
    obtain ⟨rest, whole⟩ := part
    rw [List.append_assoc] at whole
    obtain ⟨front, described, before, found, rfl⟩ := describeAll_concat_ok h
    obtain ⟨placed, rfl, enumerated⟩ := ih before ⟨_, whole⟩
    have here : (names, x) ∈ visits fs root ps := by simp [← whole]
    obtain ⟨⟨some, there⟩, _⟩ := mem_visits.1 here
    have directory : ∀ mode, x = .directory mode → ∃ d, described = .some d ∧ d.kind = .directory :=
      fun mode isDir => describe_directory some (isDir ▸ there) found
    cases described with
    | none =>
      refine ⟨placed, by simp, enumerated.skip fun mode isDir => ?_⟩
      obtain ⟨_, given, _⟩ := directory mode isDir
      simp at given
    | some e =>
      obtain ⟨above, rfl, parent, form⟩ := describe_ok found
      have once := pairwise_visits fs root ps
      rw [← whole] at once
      have new : ∀ v ∈ vs, v.1 ≠ .text e.name :: above := fun v mem =>
        (List.pairwise_append.1 once).2.2 v mem _ List.mem_cons_self
      have inside : above = [] ∨ ∃ mode, (above, .directory mode) ∈ vs := by
        by_cases atRoot : above = []
        · exact .inl atRoot
        · exact .inr (exists_visit_above whole.symm atRoot)
      have kind : ∀ mode, x = .directory mode → e.kind = .directory := by
        intro mode isDir
        obtain ⟨d, given, kind⟩ := directory mode isDir
        exact Option.some.inj given ▸ kind
      exact ⟨placed ++ [(.text e.name :: above, e)], by simp,
        enumerated.snoc parent (isStep_of_mem there List.mem_cons_self).1 form new inside kind⟩

end Scan

/-- Each entry of a scan stands behind the directory that it is in, whatever is ignored. -/
theorem nested_of_scan {fs : FileSystem} {ps : IgnorePatterns} {path : Path} {entries : List Entry}
    (h : scan fs ps path = .ok entries) :
    ∃ placed, Nested placed ∧ placed.map Prod.snd = entries ∧ ∀ e ∈ entries, e.WellFormed := by
  unfold scan at h
  split at h
  · split at h
    · simp at h
    · obtain ⟨placed, rfl, enumerated⟩ := Scan.exists_enumerates h List.prefix_rfl
      refine ⟨placed, enumerated.nested, rfl, fun e mem => ?_⟩
      obtain ⟨p, there, rfl⟩ := List.mem_map.1 mem
      exact enumerated.wellFormed p there
  · simp at h

end Scaffold
