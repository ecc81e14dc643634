import Mathlib.Data.List.Forall2
import Scaffold.Proofs.FileSystem.Canonical
import Scaffold.Proofs.Instantiation.Outcome
import Scaffold.Proofs.Template.Extraction
import Scaffold.Scan

/-!
# What a scan describes

Below the root of a project stand directories and text files, under names that are texts
without a backslash. A scan without patterns describes each of them by one entry. If every
token that is spelled there gets its own written form as its value, the entries are
rendered as they stand, and the tree that they say is the one that was scanned.
-/

namespace Scaffold

open FileSystem Placeholder

variable {fs : FileSystem} {root : Place} {names above : List Name} {x : Node} {t : Text}
  {e : Entry} {entries : List Entry} {a : Argument}

/-! ## Projects -/

/-- The node with these names below the root can be captured as it is. -/
structure IsPortable (root : Place) (names : List Name) (x : Node) : Prop where
  text : ∀ name ∈ names, ∃ t, name = .text t ∧ '\\' ∉ t
  kind : (∃ mode, x = .directory mode) ∨ ∃ content mode, x = .file (.text content) mode
  short : Text.fits maxPathLength (pathOf (names ++ root)) = true

/-- The place is that of a directory below which everything can be captured as it is. -/
structure IsProject (fs : FileSystem) (root : Place) : Prop where
  directory : ∃ mode, fs.get? root = some (.directory mode)
  above : AreTexts root
  short : Text.fits maxPathLength (pathOf root) = true
  nodes : ∀ names x, names ≠ [] → fs.get? (names ++ root) = some x → IsPortable root names x

/-- Whether a node is a directory or a file that holds a text. -/
def isTextual : Node → Bool
  | .directory _ | .file (.text _) _ => true
  | _ => false

theorem isTextual_iff : isTextual x = true
    ↔ (∃ mode, x = .directory mode) ∨ ∃ content mode, x = .file (.text content) mode := by
  cases x with
  | file content mode => cases content <;> simp [isTextual]
  | directory mode => simp [isTextual]
  | link target => simp [isTextual]

instance : Decidable (IsPortable root names x) :=
  decidable_of_iff ((∀ name ∈ names, ∃ t ∈ name.text?, '\\' ∉ t) ∧ isTextual x = true
      ∧ Text.fits maxPathLength (pathOf (names ++ root)) = true)
    ⟨fun ⟨text, kind, short⟩ => ⟨fun name mem => (text name mem).imp fun _ ⟨is, plain⟩ =>
        ⟨Octets.text?_eq_some_iff.1 is, plain⟩, isTextual_iff.1 kind, short⟩,
      fun h => ⟨fun name mem => (h.text name mem).imp fun _ ⟨is, plain⟩ =>
        ⟨Octets.text?_eq_some_iff.2 is, plain⟩, isTextual_iff.2 h.kind, h.short⟩⟩

theorem mem_nodesBelow :
    (names, x) ∈ nodesBelow fs root ↔ names ≠ [] ∧ fs.get? (names ++ root) = some x := by
  rw [← mem_listing, listing, List.mem_mergeSort]

instance : Decidable (IsProject fs root) :=
  decidable_of_iff (fs.isDirectoryAt root = true ∧ AreTexts root
      ∧ Text.fits maxPathLength (pathOf root) = true
      ∧ ∀ v ∈ nodesBelow fs root, IsPortable root v.1 v.2)
    ⟨fun ⟨directory, above, short, nodes⟩ => ⟨get?_of_isDirectoryAt directory, above, short,
        fun _ _ some found => nodes _ (mem_nodesBelow.2 ⟨some, found⟩)⟩,
      fun h => ⟨isDirectoryAt_of_get? h.directory.choose_spec, h.above, h.short,
        fun v mem => (mem_nodesBelow.1 mem).elim (h.nodes v.1 v.2)⟩⟩

theorem IsPortable.areTexts (h : IsPortable root names x) : AreTexts names := by
  intro name mem
  obtain ⟨t, eq, _⟩ := h.text name mem
  exact ⟨t, eq⟩

/-- A token in a name or in a file below the root spells the argument. -/
def Occurs (fs : FileSystem) (root : Place) (a : Argument) : Prop :=
  ∃ names x, names ≠ [] ∧ fs.get? (names ++ root) = some x
    ∧ ((∃ t above, names = .text t :: above ∧ a ∈ arguments t)
      ∨ ∃ content mode, x = .file (.text content) mode ∧ a ∈ arguments content)

/-- The arguments that tokens in its name or its content spell. -/
def spelledBy : List Name → Node → List Argument
  | .text t :: _, .file (.text content) _ => arguments t ++ arguments content
  | .text t :: _, _ => arguments t
  | _, .file (.text content) _ => arguments content
  | _, _ => []

theorem mem_spelledBy_iff : a ∈ spelledBy names x
    ↔ (∃ t above, names = .text t :: above ∧ a ∈ arguments t)
      ∨ ∃ content mode, x = .file (.text content) mode ∧ a ∈ arguments content := by
  rcases names with _ | ⟨⟨⟩ | ⟨⟩, above⟩ <;> rcases x with ⟨⟨⟩ | ⟨⟩, _⟩ | _ | _ <;> simp [spelledBy]

/-- The arguments that occur in a project. -/
def occurring (fs : FileSystem) (root : Place) : List Argument :=
  (nodesBelow fs root).flatMap fun v => spelledBy v.1 v.2

theorem mem_occurring_iff : a ∈ occurring fs root ↔ Occurs fs root a := by
  simp [occurring, Occurs, mem_nodesBelow, mem_spelledBy_iff, and_assoc]

instance : Decidable (Occurs fs root a) := decidable_of_iff _ mem_occurring_iff

/-- All tokens below the root that have one name are written alike. -/
def SpellsAlike (fs : FileSystem) (root : Place) : Prop :=
  ∀ a b, Occurs fs root a → Occurs fs root b → a.name = b.name → token a = token b

instance : Decidable (SpellsAlike fs root) :=
  decidable_of_iff (∀ a ∈ occurring fs root, ∀ b ∈ occurring fs root, a.name = b.name →
      token a = token b)
    ⟨fun h a b here there => h a (mem_occurring_iff.2 here) b (mem_occurring_iff.2 there),
      fun h a here b there => h a b (mem_occurring_iff.1 here) (mem_occurring_iff.1 there)⟩

/-- What a name on the way to a node spells occurs. -/
theorem occurs_of_mem (found : fs.get? (names ++ root) = some x) (mem : .text t ∈ names)
    (spelled : a ∈ arguments t) : Occurs fs root a := by
  obtain ⟨front, back, rfl⟩ := List.append_of_mem mem
  have here : ∃ y, fs.get? ((.text t :: back) ++ root) = some y := by
    rw [List.append_assoc] at found
    by_cases first : front = []
    · exact ⟨x, by simpa [first] using found⟩
    · obtain ⟨mode, there⟩ := get?_of_isDirectoryAt (isDirectoryAt_of_append found first)
      exact ⟨_, there⟩
  obtain ⟨y, here⟩ := here
  exact ⟨_, y, by simp, here, .inl ⟨t, back, rfl, spelled⟩⟩

/-! ## Entries of nodes -/

/-- The entry is that of the node, which has these names. -/
structure IsEntryOf (names : List Name) (x : Node) (e : Entry) : Prop where
  names : ∃ above, names = .text e.name :: above ∧ e.parent = Scan.parentPath above
  node : (e.kind = .directory ∧ e.content = none ∧ x = .directory e.mode)
    ∨ (e.kind = .file ∧ ∃ content, e.content = some content ∧ x = .file (.text content) e.mode)

/-- The entry is that of a node below the root. -/
def Depicts (fs : FileSystem) (root : Place) (names : List Name) (e : Entry) : Prop :=
  names ≠ [] ∧ ∃ x, fs.get? (names ++ root) = some x ∧ IsEntryOf names x e

/-- Each node below the root has one entry. -/
structure Shows (fs : FileSystem) (root : Place) (entries : List Entry) : Prop where
  depicts : ∀ e ∈ entries, ∃ names, Depicts fs root names e
  all : ∀ names x, names ≠ [] → fs.get? (names ++ root) = some x →
    ∃ e ∈ entries, Depicts fs root names e
  once : entries.Pairwise fun e e' => ∃ names names', names ≠ names'
    ∧ Depicts fs root names e ∧ Depicts fs root names' e'

/-- The names of its arguments make an entry no other one. -/
theorem IsEntryOf.withArgumentNames (h : IsEntryOf names x e) :
    IsEntryOf names x e.withArgumentNames :=
  ⟨h.names, h.node⟩

theorem Shows.withArgumentNames (h : Shows fs root entries) :
    Shows fs root (entries.map Entry.withArgumentNames) := by
  have kept {names : List Name} {e : Entry} (depicts : Depicts fs root names e) :
      Depicts fs root names e.withArgumentNames := by
    obtain ⟨some, x, found, entry⟩ := depicts
    exact ⟨some, x, found, entry.withArgumentNames⟩
  refine ⟨fun e mem => ?_, fun names x some found => ?_, List.pairwise_map.2 ?_⟩
  · obtain ⟨e, there, rfl⟩ := List.mem_map.1 mem
    obtain ⟨names, depicts⟩ := h.depicts e there
    exact ⟨names, kept depicts⟩
  · obtain ⟨e, mem, depicts⟩ := h.all names x some found
    exact ⟨_, List.mem_map_of_mem mem, kept depicts⟩
  · refine h.once.imp ?_
    rintro e e' ⟨names, names', differ, depicts, depicts'⟩
    exact ⟨names, names', differ, kept depicts, kept depicts'⟩

theorem IsEntryOf.wellFormed (h : IsEntryOf names x e) : e.WellFormed := by
  rcases h.node with ⟨kind, content, _⟩ | ⟨kind, content, known, _⟩
  · simp [Entry.WellFormed, Entry.isFile, kind, content]
  · simp [Entry.WellFormed, Entry.isFile, kind, known]

/-- What the entries spell is what occurs. -/
theorem Shows.occurs_iff (h : Shows fs root entries) :
    Occurs fs root a ↔ ∃ e ∈ entries, e.Spells a := by
  constructor
  · rintro ⟨names, x, some, found, spelled⟩
    obtain ⟨e, mem, _, y, found', entry⟩ := h.all names x some found
    obtain rfl := Option.some.inj (found.symm.trans found')
    refine ⟨e, mem, ?_⟩
    rcases spelled with ⟨t, above, eq, spelled⟩ | ⟨content, mode, eq, spelled⟩
    · obtain ⟨above', parts, _⟩ := entry.names
      obtain ⟨same, _⟩ := List.cons.inj (eq.symm.trans parts)
      exact .inl (Octets.text.inj same ▸ spelled)
    · rcases entry.node with ⟨_, _, isDir⟩ | ⟨_, content', known, isFile⟩
      · simp [eq] at isDir
      · obtain ⟨same, _⟩ := Node.file.inj (eq.symm.trans isFile)
        exact .inr ⟨content', known, Octets.text.inj same ▸ spelled⟩
  · rintro ⟨e, mem, spelled⟩
    obtain ⟨names, some, x, found, entry⟩ := h.depicts e mem
    refine ⟨names, x, some, found, ?_⟩
    rcases spelled with spelled | ⟨content, known, spelled⟩
    · obtain ⟨above, parts, _⟩ := entry.names
      exact .inl ⟨e.name, above, parts, spelled⟩
    · rcases entry.node with ⟨_, none, _⟩ | ⟨_, content', known', isFile⟩
      · simp [none] at known
      · obtain rfl := Option.some.inj (known.symm.trans known')
        exact .inr ⟨content, _, isFile, spelled⟩

/-! ## Sorting by a key -/

section

variable {α β : Type} [LE β] [DecidableLE β] [Std.IsLinearOrder β] {l : List α}

theorem pairwise_le_mergeSort (key : α → β) (l : List α) :
    (l.mergeSort fun a b => decide (key a ≤ key b)).Pairwise fun a b => key a ≤ key b := by
  have trans : ∀ a b c, decide (key a ≤ key b) = true → decide (key b ≤ key c) = true →
      decide (key a ≤ key c) = true := by
    intro a b c first second
    rw [decide_eq_true_eq] at first second ⊢
    exact Std.le_trans first second
  have total : ∀ a b, (decide (key a ≤ key b) || decide (key b ≤ key a)) = true := by
    intro a b
    rw [Bool.or_eq_true, decide_eq_true_eq, decide_eq_true_eq]
    exact Std.le_total
  exact (List.pairwise_mergeSort trans total l).imp of_decide_eq_true

/-- What is told apart by its key is sorted strictly. -/
theorem pairwise_lt_mergeSort [LT β] [Std.LawfulOrderLT β] (key : α → β)
    (differ : l.Pairwise fun a b => key a ≠ key b) :
    (l.mergeSort fun a b => decide (key a ≤ key b)).Pairwise fun a b => key a < key b := by
  have perm := List.mergeSort_perm l fun a b => decide (key a ≤ key b)
  have once := (perm.pairwise_iff fun {a b} (ne : key a ≠ key b) => ne.symm).2 differ
  refine ((pairwise_le_mergeSort key l).and once).imp fun {a b} ⟨le, ne⟩ => ?_
  exact Std.lt_of_le_of_ne le ne

end

/-! ## Scanning -/

namespace Scan

theorem mem_visits {ps : IgnorePatterns} {names : List Name} {x : Node} :
    (names, x) ∈ visits fs root ps
      ↔ (names ≠ [] ∧ fs.get? (names ++ root) = some x) ∧ isVisible ps names = true := by
  rw [visits, List.mem_mergeSort, List.mem_filter, mem_nodesBelow]

@[simp] theorem isVisible_nil (names : List Name) : isVisible [] names = true := by
  induction names with
  | nil => rfl
  | cons name names ih => simp [isVisible, ih]

theorem mem_visits_nil {v : List Name × Node} :
    v ∈ visits fs root [] ↔ v.1 ≠ [] ∧ fs.get? (v.1 ++ root) = some v.2 := by
  rw [show v = (v.1, v.2) from rfl, mem_visits, isVisible_nil, and_iff_left rfl]

/-- What is in order needs no sorting. -/
theorem visits_eq {ps : IgnorePatterns}
    (sorted : ((nodesBelow fs root).filter fun v => isVisible ps v.1).Pairwise
      fun v v' => key v.1 v.2 ≤ key v'.1 v'.2) :
    visits fs root ps = (nodesBelow fs root).filter fun v => isVisible ps v.1 :=
  List.mergeSort_of_pairwise (by simpa using sorted)

/-- Each node is visited once. -/
theorem pairwise_visits (fs : FileSystem) (root : Place) (ps : IgnorePatterns) :
    (visits fs root ps).Pairwise fun v v' => v.1 ≠ v'.1 := by
  have below : (nodesBelow fs root).Pairwise fun v v' => v.1 ≠ v'.1 := by
    have nodes : fs.nodes.Pairwise fun v v' => v.1 ≠ v'.1 := List.pairwise_map.1 fs.places_nodup
    refine List.pairwise_filterMap.2 (nodes.imp fun {v v'} differ u above u' above' same => ?_)
    obtain ⟨names, here, rfl⟩ := Option.map_eq_some_iff.1 above
    obtain ⟨names', here', rfl⟩ := Option.map_eq_some_iff.1 above'
    obtain ⟨_, eq⟩ := below?_eq_some_iff.1 here
    obtain ⟨_, eq'⟩ := below?_eq_some_iff.1 here'
    exact differ (by rw [eq, eq', show names = names' from same])
  exact ((List.mergeSort_perm _ _).pairwise_iff fun differ => differ.symm).2 (below.filter _)

theorem exists_describe (project : IsProject fs root) (some : names ≠ [])
    (found : fs.get? (names ++ root) = .some x) :
    ∃ e, describe fs root names = .ok (.some e) ∧ IsEntryOf names x e := by
  have portable := project.nodes names x some found
  cases names with
  | nil => exact absurd rfl some
  | cons name above =>
    obtain ⟨t, rfl⟩ := portable.areTexts name List.mem_cons_self
    rcases portable.kind with ⟨mode, rfl⟩ | ⟨content, mode, rfl⟩
    · have met : FileSystem.target fs ((.text t :: above) ++ root) = .ok (.directory mode) :=
        target_eq found (by simp) portable.short
      refine ⟨directoryEntry t above mode, by simp only [describe, met], ⟨above, rfl, rfl⟩, ?_⟩
      exact .inl ⟨rfl, rfl, by simp [directoryEntry, Entry.mode]⟩
    · have met : FileSystem.target fs ((.text t :: above) ++ root) = .ok (.file (.text content) mode) :=
        target_eq found (by simp) portable.short
      refine ⟨fileEntry t above mode content, by simp only [describe, met], ⟨above, rfl, rfl⟩, ?_⟩
      exact .inr ⟨rfl, content, rfl, by simp [fileEntry, Entry.mode]⟩

theorem exists_describeAll (project : IsProject fs root) {vs : List (List Name × Node)}
    (there : ∀ v ∈ vs, v.1 ≠ [] ∧ fs.get? (v.1 ++ root) = some v.2) :
    ∃ entries, describeAll fs root vs = .ok entries
      ∧ List.Forall₂ (fun v e => Depicts fs root v.1 e) vs entries := by
  induction vs with
  | nil => exact ⟨[], rfl, .nil⟩
  | cons v vs ih =>
    obtain ⟨names, x⟩ := v
    obtain ⟨some, found⟩ := there _ List.mem_cons_self
    obtain ⟨e, described, entry⟩ := exists_describe project some found
    obtain ⟨entries, others, depicted⟩ := ih fun v mem => there v (List.mem_cons_of_mem _ mem)
    refine ⟨e :: entries, ?_, .cons ⟨some, x, found, entry⟩ depicted⟩
    simp only [describeAll, described, others]
    rfl

private theorem exists_left {α β : Type} {R : α → β → Prop} {l : List α} {m : List β} {b : β}
    (h : List.Forall₂ R l m) (mem : b ∈ m) : ∃ a ∈ l, R a b := by
  induction h with
  | nil => simp at mem
  | cons first _ ih =>
    rcases List.mem_cons.1 mem with rfl | mem
    · exact ⟨_, List.mem_cons_self, first⟩
    · obtain ⟨a, mem, related⟩ := ih mem
      exact ⟨a, List.mem_cons_of_mem _ mem, related⟩

private theorem pairwise_of_visits {vs : List (List Name × Node)}
    (h : List.Forall₂ (fun v e => Depicts fs root v.1 e) vs entries)
    (differ : vs.Pairwise fun v v' => v.1 ≠ v'.1) :
    entries.Pairwise fun e e' => ∃ names names', names ≠ names'
      ∧ Depicts fs root names e ∧ Depicts fs root names' e' := by
  induction h with
  | nil => exact .nil
  | cons first more ih =>
    rw [List.pairwise_cons] at differ
    refine .cons (fun e' mem => ?_) (ih differ.2)
    obtain ⟨v', mem', depicts⟩ := exists_left more mem
    exact ⟨_, _, differ.1 v' mem', first, depicts⟩

end Scan

/-- The path of a directory is scanned by describing what is visited below it. -/
theorem scan_of_lookup {mode : Mode} {ps : IgnorePatterns}
    (looked : lookup fs (pathOf root) = .ok (root, .directory mode))
    (short : Text.fits maxPathLength (pathOf root) = true) :
    scan fs ps (pathOf root) = Scan.describeAll fs root (Scan.visits fs root ps) := by
  have canonical : FileSystem.canonical fs (pathOf root) = .ok (pathOf root) := by
    simp only [FileSystem.canonical, looked, short, if_true]
  simp only [scan, looked, canonical]

theorem scan_pathOf (project : IsProject fs root) (ps : IgnorePatterns) :
    scan fs ps (pathOf root) = Scan.describeAll fs root (Scan.visits fs root ps) := by
  obtain ⟨mode, there⟩ := project.directory
  exact scan_of_lookup (lookup_pathOf project.above there project.short) project.short

/-- A scan without patterns gives one entry for each node of a project. -/
theorem exists_scan (project : IsProject fs root) :
    ∃ entries, scan fs [] (pathOf root) = .ok entries ∧ Shows fs root entries := by
  obtain ⟨entries, described, depicted⟩ :=
    Scan.exists_describeAll project fun v mem => Scan.mem_visits_nil.1 mem
  refine ⟨entries, (scan_pathOf project []).trans described, ?_, ?_, ?_⟩
  · intro e mem
    obtain ⟨v, _, depicts⟩ := Scan.exists_left depicted mem
    exact ⟨v.1, depicts⟩
  · intro names x some found
    have visited : (names, x) ∈ Scan.visits fs root [] := Scan.mem_visits_nil.2 ⟨some, found⟩
    exact Scan.exists_left depicted.flip visited
  · exact Scan.pairwise_of_visits depicted (Scan.pairwise_visits fs root [])

end Scaffold
