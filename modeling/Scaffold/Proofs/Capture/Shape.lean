import Scaffold.Proofs.Capture.Order

/-!
# The shape of a scan

A scan that succeeds gives one entry to each node below its root that no pattern hides and
that is no dangling link, and no entry to anything else. The entries stand in the order of
a walk over the tree: what is in a directory comes right behind it, and within a directory
the real directories come last. The order in which a file system holds its nodes has no
influence.
-/

namespace Scaffold

open FileSystem

namespace FileSystem

variable {fs fs' : FileSystem} {here place : Place} {path : Path}

/-! ## What a file system answers -/

/-- The two file systems hold the same nodes and start relative paths at the same place, in
whatever order they list the nodes. -/
structure Alike (fs fs' : FileSystem) : Prop where
  get? : ∀ place, fs.get? place = fs'.get? place
  workDir : fs.workDir = fs'.workDir

theorem Alike.walk (alike : Alike fs fs') (goal : Goal) (segments : List Text) :
    walk fs goal here segments = FileSystem.walk fs' goal here segments := by
  induction segments generalizing here with
  | nil => rw [walk_nil, walk_nil]
  | cons segment rest ih => simp only [FileSystem.walk, alike.get?, ih]

theorem Alike.resolve (alike : Alike fs fs') (goal : Goal) (links : Nat) (segments : List Text) :
    resolve fs goal links here segments = FileSystem.resolve fs' goal links here segments := by
  induction links generalizing here segments with
  | zero => rw [FileSystem.resolve, FileSystem.resolve, alike.walk]
  | succ links ih =>
    rw [FileSystem.resolve, FileSystem.resolve, alike.walk]
    simp only [ih]

theorem Alike.lookup (alike : Alike fs fs') (path : Path) :
    lookup fs path = FileSystem.lookup fs' path := by
  have located : FileSystem.locate fs .node path = FileSystem.locate fs' .node path := by
    simp only [locate, alike.resolve, alike.workDir]
  simp only [FileSystem.lookup, located, alike.get?]

theorem Alike.target (alike : Alike fs fs') (place : Place) :
    target fs place = FileSystem.target fs' place := by
  cases place with
  | nil => simp only [FileSystem.target, alike.get?]
  | cons name base => simp only [FileSystem.target, alike.resolve, alike.get?]

end FileSystem

namespace Scan

variable {fs fs' : FileSystem} {root : Place} {ps : IgnorePatterns} {names above part : List Name}
  {x : Node} {e : Entry} {vs : List (List Name × Node)} {placed : List (List Name × Entry)}
  {entries : List Entry}

/-! ## What a scan is to look like -/

/-- The names are those of a node that a scan describes. -/
structure IsListed (fs : FileSystem) (root : Place) (ps : IgnorePatterns) (names : List Name) :
    Prop where
  below : names ≠ []
  /-- Neither the node nor a directory that it is in is hidden. -/
  visible : ∀ part, part ≠ [] → part <:+ names → ps.hide (relativePath part) = false
  /-- There is such a node, and it is no link that leads nowhere. -/
  there : ∃ x, fs.get? (names ++ root) = some x
    ∧ ((∃ path, x = .link path) → target fs (names ++ root) ≠ .error .notFound)

/-- The node stands at the place, or a link there leads to it. -/
def IsMet (fs : FileSystem) (place : Place) (x : Node) : Prop :=
  fs.get? place = some x ∨ ∃ path, fs.get? place = some (.link path) ∧ target fs place = .ok x

/-- The entry is that of the node with these names. -/
structure IsDescribedBy (fs : FileSystem) (root : Place) (names : List Name) (e : Entry) : Prop where
  /-- It has the last name, and its parent path says the others. -/
  name : ∃ above, names = .text e.name :: above
    ∧ e.parent = if above = [] then ['.'] else relativePath above
  /-- It has the mode of the node, and content if that is a file. -/
  node : ∃ mode, e.bits = mode.toBits
    ∧ ((IsMet fs (names ++ root) (.directory mode) ∧ e.kind = .directory ∧ e.content = none)
      ∨ ∃ content, IsMet fs (names ++ root) (.file (.text content) mode) ∧ e.kind = .file
        ∧ e.content = some content)

/-- Of two nodes in one directory, the first one comes first: what is no directory before a
directory, and otherwise in the order of the bytes. -/
def ComesFirst (fs : FileSystem) (root : Place) (names names' : List Name) : Prop :=
  ∀ n n' above, names = n :: above → names' = n' :: above →
    (fs.isDirectoryAt (names ++ root) = true → fs.isDirectoryAt (names' ++ root) = true)
      ∧ (fs.isDirectoryAt (names ++ root) = fs.isDirectoryAt (names' ++ root) → n.bytes < n'.bytes)

/-- The entries, each with the names of its node, are laid out as a scan lays them out. -/
structure Shape (fs : FileSystem) (root : Place) (ps : IgnorePatterns)
    (placed : List (List Name × Entry)) : Prop where
  listed : ∀ names, (∃ e, (names, e) ∈ placed) ↔ IsListed fs root ps names
  once : placed.Pairwise fun v v' => v.1 ≠ v'.1
  described : ∀ v ∈ placed, IsDescribedBy fs root v.1 v.2
  /-- What is in a directory stands right behind it, and nowhere else. -/
  contiguous : ∀ front v back, placed = front ++ v :: back → ∃ inside rest, back = inside ++ rest
    ∧ (∀ u ∈ inside, v.1 <:+ u.1) ∧ ∀ u ∈ front ++ rest, ¬ v.1 <:+ u.1
  siblings : placed.Pairwise fun v v' => ComesFirst fs root v.1 v'.1

/-! ## What is visited and described -/

theorem isVisible_iff : isVisible ps names = true
    ↔ ∀ part, part ≠ [] → part <:+ names → ps.hide (relativePath part) = false := by
  induction names with
  | nil => exact iff_of_true rfl fun part some suffix => absurd (List.suffix_nil.1 suffix) some
  | cons name above ih =>
    rw [isVisible, Bool.and_eq_true, Bool.not_eq_true', ih]
    constructor
    · rintro ⟨here, others⟩ part some suffix
      rcases List.suffix_cons_iff.1 suffix with rfl | suffix
      · exact here
      · exact others part some suffix
    · intro all
      exact ⟨all _ (List.cons_ne_nil _ _) List.suffix_rfl, fun part some suffix =>
        all part some (suffix.trans (List.suffix_cons _ _))⟩

/-- Every directory that a visited node is in is visited. -/
theorem exists_mem_visits (mem : (names, x) ∈ visits fs root ps) (some : part ≠ [])
    (suffix : part <:+ names) : ∃ y, (part, y) ∈ visits fs root ps := by
  obtain ⟨⟨_, found⟩, visible⟩ := mem_visits.1 mem
  obtain ⟨more, rfl⟩ := suffix
  have visible' : isVisible ps part = true := isVisible_iff.2 fun sub some suffix =>
    isVisible_iff.1 visible sub some (suffix.trans (List.suffix_append more part))
  by_cases here : more = []
  · subst here
    exact ⟨x, mem⟩
  · rw [List.append_assoc] at found
    obtain ⟨mode, there⟩ := get?_of_isDirectoryAt (isDirectoryAt_of_append found here)
    exact ⟨_, mem_visits.2 ⟨⟨some, there⟩, visible'⟩⟩

/-- The entry that a node is described by, if it is described. -/
def entryOf? (fs : FileSystem) (root : Place) (names : List Name) : Option Entry :=
  match describe fs root names with
  | .ok described => described
  | .error _ => none

/-- The entries of nodes that are described, with the names of the nodes. -/
def placedOf (fs : FileSystem) (root : Place) (vs : List (List Name × Node)) :
    List (List Name × Entry) :=
  vs.filterMap fun v => (entryOf? fs root v.1).map fun e => (v.1, e)

theorem entryOf?_eq_some_iff : entryOf? fs root names = some e
    ↔ describe fs root names = .ok (some e) := by
  unfold entryOf?
  cases describe fs root names <;> simp

theorem mem_placedOf : (names, e) ∈ placedOf fs root vs
    ↔ (∃ x, (names, x) ∈ vs) ∧ describe fs root names = .ok (some e) := by
  rw [placedOf, List.mem_filterMap, ← entryOf?_eq_some_iff]
  constructor
  · rintro ⟨⟨names', x⟩, mem, made⟩
    obtain ⟨e', described, same⟩ := Option.map_eq_some_iff.1 made
    obtain ⟨rfl, rfl⟩ := Prod.mk.inj same
    exact ⟨⟨x, mem⟩, described⟩
  · rintro ⟨⟨x, mem⟩, described⟩
    exact ⟨(names, x), mem, by rw [described]; rfl⟩

theorem describeAll_ok (h : describeAll fs root vs = .ok entries) :
    (placedOf fs root vs).map Prod.snd = entries
      ∧ ∀ v ∈ vs, ∃ described, describe fs root v.1 = .ok described := by
  induction vs generalizing entries with
  | nil =>
    obtain rfl : [] = entries := Except.ok.inj h
    exact ⟨rfl, by simp⟩
  | cons v vs ih =>
    rw [describeAll] at h
    split at h
    · simp at h
    · rename_i described first
      split at h
      · simp at h
      · rename_i rest others
        obtain ⟨rfl, all⟩ := ih others
        obtain rfl := Except.ok.inj h
        have here : entryOf? fs root v.1 = described := by rw [entryOf?, first]
        refine ⟨?_, List.forall_mem_cons.2 ⟨⟨described, first⟩, all⟩⟩
        cases described with
        | none => rw [placedOf, List.filterMap_cons_none (by rw [here]; rfl)]; rfl
        | some e => rw [placedOf, List.filterMap_cons_some (by rw [here]; rfl)]; rfl

theorem describeAll_congr (same : ∀ v ∈ vs, describe fs' root v.1 = describe fs root v.1) :
    describeAll fs' root vs = describeAll fs root vs := by
  induction vs with
  | nil => rfl
  | cons v vs ih =>
    obtain ⟨first, others⟩ := List.forall_mem_cons.1 same
    simp only [describeAll, first, ih others]

/-- A node that is no link leads to itself, unless its path is too long. -/
theorem target_of_not_link {t : Text} {base : Place} (found : fs.get? (.text t :: base) = some x)
    (notLink : ∀ path, x ≠ .link path) : target fs (.text t :: base) = .ok x
      ∨ target fs (.text t :: base) = .error .invalidFilename := by
  by_cases short : Text.fits maxPathLength (pathOf (.text t :: base)) = true
  · exact .inl (target_eq found notLink short)
  · exact .inr (by simp [FileSystem.target, short])

/-- A node that is left out is a link that leads nowhere. -/
theorem describe_none_iff {described : Option Entry} (found : fs.get? (names ++ root) = some x)
    (below : names ≠ []) (h : describe fs root names = .ok described) :
    described = none ↔ (∃ path, x = .link path) ∧ target fs (names ++ root) = .error .notFound := by
  unfold describe at h
  split at h
  · exact absurd rfl below
  · simp at h
  · rename_i name above
    split at h
    · rename_i nowhere
      refine iff_of_true (Except.ok.inj h).symm ⟨?_, nowhere⟩
      by_contra notLink
      rcases target_of_not_link found fun path eq => notLink ⟨path, eq⟩ with met | long
      · exact absurd (met.symm.trans nowhere) (by simp)
      · exact absurd (long.symm.trans nowhere) (by simp)
    · simp at h
    · rename_i met
      refine iff_of_false (fun none => ?_) fun nowhere => ?_
      · simp [none] at h
      · exact absurd (met.symm.trans nowhere.2) (by simp)
    · rename_i met
      refine iff_of_false (fun none => ?_) fun nowhere => ?_
      · simp [none] at h
      · exact absurd (met.symm.trans nowhere.2) (by simp)
    · simp at h

/-- What is described is the node, or what the link leads to. -/
theorem isDescribedBy_of_describe (found : fs.get? (names ++ root) = some x)
    (h : describe fs root names = .ok (some e)) : IsDescribedBy fs root names e := by
  have isMet {t : Text} {base : Place} {y : Node} (found : fs.get? (.text t :: base) = some x)
      (met : target fs (.text t :: base) = .ok y) : IsMet fs (.text t :: base) y := by
    by_cases link : ∃ path, x = .link path
    · obtain ⟨path, rfl⟩ := link
      exact .inr ⟨path, found, met⟩
    · rcases target_of_not_link found fun path eq => link ⟨path, eq⟩ with self | long
      · exact .inl (Except.ok.inj (self.symm.trans met) ▸ found)
      · exact absurd (long.symm.trans met) (by simp)
  unfold describe at h
  split at h
  · simp at h
  · simp at h
  · split at h
    · simp at h
    · simp at h
    · rename_i mode met
      obtain rfl := Option.some.inj (Except.ok.inj h)
      exact ⟨⟨_, rfl, rfl⟩, mode, rfl, .inl ⟨isMet found met, rfl, rfl⟩⟩
    · rename_i content mode met
      obtain rfl := Option.some.inj (Except.ok.inj h)
      exact ⟨⟨_, rfl, rfl⟩, mode, rfl, .inr ⟨content, isMet found met, rfl, rfl⟩⟩
    · simp at h

/-- If the scan does not stop, the names of what is visited are texts. -/
theorem areTexts_of_visits
    (all : ∀ v ∈ visits fs root ps, ∃ described, describe fs root v.1 = .ok described) :
    ∀ v ∈ visits fs root ps, AreTexts v.1 := by
  intro v mem name inside
  obtain ⟨front, back, parts⟩ := List.append_of_mem inside
  obtain ⟨y, there⟩ := exists_mem_visits mem (List.cons_ne_nil name back) ⟨front, parts.symm⟩
  obtain ⟨described, h⟩ := all _ there
  unfold describe at h
  split at h
  · rename_i none
    exact absurd none (List.cons_ne_nil _ _)
  · simp at h
  · rename_i t above same
    exact ⟨t, (List.cons.inj same).1⟩

/-! ## The order of what is described -/

/-- The node with the first names has the smaller key. -/
def IsBefore (fs : FileSystem) (root : Place) (names names' : List Name) : Prop :=
  ∀ x x', fs.get? (names ++ root) = some x → fs.get? (names' ++ root) = some x' →
    key names x < key names' x'

theorem pairwise_isBefore (fs : FileSystem) (root : Place) (ps : IgnorePatterns) :
    (placedOf fs root (visits fs root ps)).Pairwise fun v v' => IsBefore fs root v.1 v'.1 := by
  refine List.pairwise_filterMap.2 ((pairwise_key_lt fs root ps).imp_of_mem ?_)
  intro v v' mem mem' less p made p' made'
  obtain ⟨e, _, rfl⟩ := Option.map_eq_some_iff.1 made
  obtain ⟨e', _, rfl⟩ := Option.map_eq_some_iff.1 made'
  intro x x' found found'
  obtain rfl := Option.some.inj ((mem_visits.1 mem).1.2.symm.trans found)
  obtain rfl := Option.some.inj ((mem_visits.1 mem').1.2.symm.trans found')
  exact less

/-- Nodes in one directory are told apart by what they are and by their names. -/
theorem comesFirst_of_isBefore {names names' : List Name} {x x' : Node}
    (found : fs.get? (names ++ root) = some x) (found' : fs.get? (names' ++ root) = some x')
    (before : IsBefore fs root names names') : ComesFirst fs root names names' := by
  rintro n n' above rfl rfl
  have less := before x x' found found'
  rw [key_cons, key_cons] at less
  have last : [(if x.isDirectory then (1 : UInt8) else 0) :: n.bytes]
      < [(if x'.isDirectory then 1 else 0) :: n'.bytes] := by
    by_contra notLess
    exact absurd less (List.not_lt.2 (List.append_left_le (List.not_lt.1 notLess)))
  have isDir : fs.isDirectoryAt (n :: above ++ root) = x.isDirectory := by
    rw [isDirectoryAt, found, Option.any_some]
  have isDir' : fs.isDirectoryAt (n' :: above ++ root) = x'.isDirectory := by
    rw [isDirectoryAt, found', Option.any_some]
  rw [isDir, isDir']
  cases kind : x.isDirectory <;> cases kind' : x'.isDirectory <;>
    simp [kind, kind', List.cons_lt_cons_iff] at last ⊢
  · exact last
  · exact last

/-- What is in a directory comes behind it. -/
theorem not_suffix_of_isBefore {names : List Name} {x x' : Node}
    (found : fs.get? (above ++ root) = some x) (found' : fs.get? (names ++ root) = some x')
    (some : names ≠ []) (differ : names ≠ above) (before : IsBefore fs root above names) :
    ¬ names <:+ above := by
  rintro ⟨more, rfl⟩
  have deep : more ≠ [] := by
    rintro rfl
    exact differ rfl
  have less := before x x' found found'
  rw [List.append_assoc] at found
  obtain ⟨mode, there⟩ := get?_of_isDirectoryAt (isDirectoryAt_of_append found deep)
  obtain rfl := Option.some.inj (found'.symm.trans there)
  rw [key_append deep, key_eq_trail some] at less
  exact absurd less (List.not_lt.2 List.le_append_left)

/-- A node between a directory and something in it is in the directory too. -/
theorem suffix_of_isBefore {more between : List Name} {x y z : Node} (some : above ≠ [])
    (some' : between ≠ []) (deep : more ≠ []) (found : fs.get? (above ++ root) = .some x)
    (found' : fs.get? (between ++ root) = .some y)
    (found'' : fs.get? (more ++ above ++ root) = .some z) (first : IsBefore fs root above between)
    (last : IsBefore fs root between (more ++ above)) : above <:+ between := by
  have inside := found''
  rw [List.append_assoc] at inside
  obtain ⟨mode, there⟩ := get?_of_isDirectoryAt (isDirectoryAt_of_append inside deep)
  obtain rfl := Option.some.inj (found.symm.trans there)
  exact suffix_of_key_le some some' deep
    (List.le_of_lt (first _ _ found found')) (List.le_of_lt (last _ _ found' found''))

/-- The nodes that are described, in order. -/
structure IsSorted (fs : FileSystem) (root : Place) (placed : List (List Name × Entry)) : Prop where
  below : ∀ v ∈ placed, v.1 ≠ []
  there : ∀ v ∈ placed, ∃ x, fs.get? (v.1 ++ root) = some x
  once : placed.Pairwise fun v v' => v.1 ≠ v'.1
  sorted : placed.Pairwise fun v v' => IsBefore fs root v.1 v'.1

/-- Behind a node that is not in a directory no node is in it any more. -/
private theorem IsSorted.not_suffix_behind {front middle rest : List (List Name × Entry)}
    {v r u : List Name × Entry} (h : IsSorted fs root (front ++ v :: middle ++ r :: rest))
    (outside : ¬ v.1 <:+ r.1) (later : u ∈ rest) : ¬ v.1 <:+ u.1 := by
  have order : ([v] ++ [r, u]).Sublist (front ++ v :: middle ++ r :: rest) :=
    (List.singleton_sublist.2 (by simp)).append ((List.singleton_sublist.2 later).cons_cons r)
  have mem {w : List Name × Entry} (among : w ∈ [v, r, u]) := order.subset among
  have once := h.once.sublist order
  have sorted := h.sorted.sublist order
  simp only [List.singleton_append, List.pairwise_cons, List.mem_cons, List.not_mem_nil, or_false,
    forall_eq_or_imp, forall_eq] at once sorted
  obtain ⟨x, found⟩ := h.there v (mem (by simp))
  obtain ⟨y, found'⟩ := h.there r (mem (by simp))
  obtain ⟨z, found''⟩ := h.there u (mem (by simp))
  rintro ⟨more, eq⟩
  have deep : more ≠ [] := by
    rintro rfl
    exact once.1.2 eq
  have last := sorted.2.1
  rw [← eq] at found'' last
  exact outside (suffix_of_isBefore (h.below v (mem (by simp))) (h.below r (mem (by simp))) deep
    found found' found'' sorted.1.1 last)

theorem IsSorted.contiguous (h : IsSorted fs root placed) (front : List (List Name × Entry))
    (v : List Name × Entry) (back : List (List Name × Entry)) (parts : placed = front ++ v :: back) :
    ∃ inside rest, back = inside ++ rest ∧ (∀ u ∈ inside, v.1 <:+ u.1)
      ∧ ∀ u ∈ front ++ rest, ¬ v.1 <:+ u.1 := by
  subst parts
  have here : v ∈ front ++ v :: back := List.mem_append_right _ List.mem_cons_self
  obtain ⟨x, found⟩ := h.there v here
  obtain ⟨_, _, sortedFront⟩ := List.pairwise_append.1 h.sorted
  obtain ⟨_, _, onceFront⟩ := List.pairwise_append.1 h.once
  -- what is in the directory is the longest stretch behind it, so only what is behind a node
  -- that is not in it has to be looked at
  have split := List.takeWhile_append_dropWhile (p := fun u : List Name × Entry => v.1 <:+ u.1)
    (l := back)
  refine ⟨back.takeWhile fun u => v.1 <:+ u.1, back.dropWhile fun u => v.1 <:+ u.1,
    split.symm, fun u mem => ?_, fun u mem => ?_⟩
  · simpa using List.mem_takeWhile_imp mem
  rcases List.mem_append.1 mem with mem | mem
  · obtain ⟨y, found'⟩ := h.there u (List.mem_append_left _ mem)
    exact not_suffix_of_isBefore found' found (h.below v here)
      (onceFront u mem v List.mem_cons_self).symm (sortedFront u mem v List.mem_cons_self)
  · cases dropped : back.dropWhile fun u => v.1 <:+ u.1 with
    | nil => simp [dropped] at mem
    | cons r rest =>
      have outside : ¬ v.1 <:+ r.1 := by
        have head := List.head?_dropWhile_not (fun u => decide (v.1 <:+ u.1)) back
        simpa [dropped] using head
      rw [dropped] at mem split
      rcases List.mem_cons.1 mem with rfl | later
      · exact outside
      · rw [← split, ← List.cons_append, ← List.append_assoc] at h
        exact h.not_suffix_behind outside later

/-- What the visited nodes are described by has the shape of a scan. -/
theorem shape_placedOf
    (all : ∀ v ∈ visits fs root ps, ∃ described, describe fs root v.1 = .ok described) :
    Shape fs root ps (placedOf fs root (visits fs root ps)) := by
  have visited {v : List Name × Entry} (mem : v ∈ placedOf fs root (visits fs root ps)) :
      ∃ x, (v.1, x) ∈ visits fs root ps := (mem_placedOf.1 mem).1
  have once : (placedOf fs root (visits fs root ps)).Pairwise fun v v' => v.1 ≠ v'.1 := by
    refine List.pairwise_filterMap.2 ((pairwise_visits fs root ps).imp ?_)
    intro v v' differ p made p' made'
    obtain ⟨e, _, rfl⟩ := Option.map_eq_some_iff.1 made
    obtain ⟨e', _, rfl⟩ := Option.map_eq_some_iff.1 made'
    exact differ
  have sorted : IsSorted fs root (placedOf fs root (visits fs root ps)) :=
    ⟨fun v mem => (visited mem).elim fun _ there => (mem_visits.1 there).1.1,
      fun v mem => (visited mem).imp fun _ there => (mem_visits.1 there).1.2,
      once, pairwise_isBefore fs root ps⟩
  refine ⟨fun names => ⟨?_, ?_⟩, once, fun v mem => ?_, sorted.contiguous, ?_⟩
  · rintro ⟨e, mem⟩
    obtain ⟨⟨x, there⟩, described⟩ := mem_placedOf.1 mem
    obtain ⟨⟨below, found⟩, visible⟩ := mem_visits.1 there
    refine ⟨below, isVisible_iff.1 visible, x, found, fun link nowhere => ?_⟩
    exact absurd ((describe_none_iff found below described).2 ⟨link, nowhere⟩) (by simp)
  · rintro ⟨below, visible, x, found, leads⟩
    have there := mem_visits.2 ⟨⟨below, found⟩, isVisible_iff.2 visible⟩
    obtain ⟨described, h⟩ := all _ there
    cases described with
    | none =>
      obtain ⟨link, nowhere⟩ := (describe_none_iff found below h).1 rfl
      exact absurd nowhere (leads link)
    | some e => exact ⟨e, mem_placedOf.2 ⟨⟨x, there⟩, h⟩⟩
  · obtain ⟨⟨x, there⟩, described⟩ := mem_placedOf.1 mem
    exact isDescribedBy_of_describe (mem_visits.1 there).1.2 described
  · refine sorted.sorted.imp_of_mem fun {v v'} mem mem' before => ?_
    obtain ⟨x, found⟩ := sorted.there v mem
    obtain ⟨x', found'⟩ := sorted.there v' mem'
    exact comesFirst_of_isBefore found found' before

end Scan

/-- A scan that succeeds gives the entries of the visible nodes below its root, each of them
once and with what the node has, in the order of a walk over the tree. It does not depend on
the order in which the file system lists its nodes. -/
theorem shape_of_scan {fs : FileSystem} {ps : IgnorePatterns} {path : Path} {entries : List Entry}
    (h : scan fs ps path = .ok entries) :
    ∃ root mode placed, lookup fs path = .ok (root, .directory mode)
      ∧ placed.map Prod.snd = entries ∧ Scan.Shape fs root ps placed
      ∧ ∀ fs', Alike fs fs' → scan fs' ps path = .ok entries := by
  unfold scan at h
  split at h
  · rename_i root mode looked
    split at h
    · simp at h
    · rename_i named canonical
      obtain ⟨made, all⟩ := Scan.describeAll_ok h
      refine ⟨root, mode, _, looked, made, Scan.shape_placedOf all, fun fs' alike => ?_⟩
      have visited : Scan.visits fs' root ps = Scan.visits fs root ps :=
        Scan.visits_congr fun names _ _ => (alike.get? _).symm
      have canonical' : FileSystem.canonical fs' path = .ok named := by
        rw [← canonical]
        simp only [FileSystem.canonical, alike.lookup]
      rw [scan, ← alike.lookup, looked]
      simp only [canonical', visited]
      rw [← h]
      exact Scan.describeAll_congr fun v _ => by simp only [Scan.describe, alike.target]
  · simp at h

/-- The place of a directory tree with links in it. -/
def shelfRoot : Place := [.text "p".toList]

/-- A file, a directory with a file in it, links to both of them, a link that leads nowhere, and
a file that is to be hidden. -/
def shelf : FileSystem :=
  let at' (names : List String) : Place := names.map (fun s => .text s.toList) ++ shelfRoot
  (((((((((FileSystem.empty.put shelfRoot (.directory 0o755)).put
    (at' ["b"]) (.directory 0o755)).put
    (at' ["c.txt", "b"]) (.file (.text "inner".toList) 0o600)).put
    (at' ["b"]) (.directory 0o700)).put
    (at' ["z.log"]) (.file (.text "hidden".toList) 0o644)).put
    (at' ["to-file"]) (.link "a.txt".toList)).put
    (at' ["to-dir"]) (.link "b".toList)).put
    (at' ["lost"]) (.link "nowhere".toList)).put
    (at' ["a.txt"]) (.file (.text "outer".toList) 0o4755))

/-- Whatever ends in `.log` is hidden. -/
def shelfPatterns : IgnorePatterns := (IgnorePatterns.compile ["*.log".toList]).toOption.getD []

/-- The entries that describe the tree. -/
def shelfEntries : List Entry :=
  [⟨"a.txt".toList, .file, ['.'], 0o4755, some "outer".toList, []⟩,
    ⟨"to-dir".toList, .directory, ['.'], 0o700, none, []⟩,
    ⟨"to-file".toList, .file, ['.'], 0o4755, some "outer".toList, []⟩,
    ⟨"b".toList, .directory, ['.'], 0o700, none, []⟩,
    ⟨"c.txt".toList, .file, "b".toList, 0o600, some "inner".toList, []⟩]

theorem scan_shelf : scan shelf shelfPatterns "/p".toList = .ok shelfEntries := by
  have looked : lookup shelf "/p".toList = .ok (shelfRoot, .directory 0o755) := by decide +kernel
  have canonical : FileSystem.canonical shelf "/p".toList = .ok "/p".toList := by decide +kernel
  have sorted : Scan.visits shelf shelfRoot shelfPatterns
      = (nodesBelow shelf shelfRoot).filter fun v => Scan.isVisible shelfPatterns v.1 :=
    Scan.visits_eq (by decide +kernel)
  rw [scan, looked]
  simp only [canonical, sorted]
  decide +kernel

/-- The scan of the tree has the shape of a scan, in whatever order the nodes are listed. -/
theorem shape_of_scan_shelf :
    scan shelf shelfPatterns "/p".toList = .ok shelfEntries
      ∧ ∃ root mode placed, lookup shelf "/p".toList = .ok (root, .directory mode)
        ∧ placed.map Prod.snd = shelfEntries ∧ Scan.Shape shelf root shelfPatterns placed
        ∧ ∀ fs', Alike shelf fs' → scan fs' shelfPatterns "/p".toList = .ok shelfEntries :=
  ⟨scan_shelf, shape_of_scan scan_shelf⟩

end Scaffold
