import Mathlib.Data.List.Flatten
import Scaffold.Proofs.Capture.Unchanged

/-!
# What is hidden does not matter

Deleting everything that the patterns hide below a directory leaves a tree, for whatever
holds a visible node is visible. A scan of the directory with the patterns gives the same
answer as a scan of that tree without any, whether it succeeds or stops: the same nodes are
visited in the same order, and each of them that is no link is described by itself.

The nodes that are visited are listed as a sorted selection. They are those of a walk that
goes through one directory after the other and does not enter what is hidden.
-/

namespace Scaffold

open FileSystem

variable {fs fs' : FileSystem} {root place : Place} {ps : IgnorePatterns}
  {names above : List Name} {x : Node} {v : List Name × Node}

/-! ## Hidden nodes -/

/-- A pattern hides the path of the node, or that of a directory above it, below the root. -/
def IsHidden (ps : IgnorePatterns) (names : List Name) : Prop :=
  ∃ part, part ≠ [] ∧ part <:+ names ∧ ps.hide (relativePath part) = true

theorem isVisible_iff_not_isHidden : Scan.isVisible ps names = true ↔ ¬ IsHidden ps names := by
  simp [Scan.isVisible_iff, IsHidden]

instance : Decidable (IsHidden ps names) :=
  decidable_of_iff (Scan.isVisible ps names = false) (by
    rw [← Bool.not_eq_true, isVisible_iff_not_isHidden, not_not])

/-- The second file system holds below the root what the first one holds there and no pattern
hides. -/
structure IsPruned (ps : IgnorePatterns) (root : Place) (fs fs' : FileSystem) : Prop where
  kept : ∀ names, names ≠ [] → ¬ IsHidden ps names → fs'.get? (names ++ root) = fs.get? (names ++ root)
  gone : ∀ names, IsHidden ps names → fs'.get? (names ++ root) = none

namespace FileSystem

/-- Whether a node stays when what is hidden below the root is deleted. -/
def stays (ps : IgnorePatterns) (root place : Place) : Bool :=
  (below? root place).all (Scan.isVisible ps)

theorem stays_append (some : names ≠ []) :
    stays ps root (names ++ root) = Scan.isVisible ps names := by
  simp [stays, below?_append root some]

/-- What is above a node that stays does so too. -/
theorem stays_tail {name : Name} (h : stays ps root (name :: place) = true) :
    stays ps root place = true := by
  cases above : below? root place with
  | none => simp [stays, above]
  | some names =>
    obtain ⟨some, rfl⟩ := below?_eq_some_iff.1 above
    rw [← List.cons_append, stays_append (List.cons_ne_nil _ _), Scan.isVisible,
      Bool.and_eq_true] at h
    rw [stays_append some]
    exact h.2

theorem stays_root : stays ps root [] = true := by
  cases above : below? root [] with
  | none => simp [stays, above]
  | some names =>
    obtain ⟨some, eq⟩ := below?_eq_some_iff.1 above
    exact absurd (List.append_eq_nil_iff.1 eq.symm).1 some

/-- Delete what is hidden below a place. -/
def prune (fs : FileSystem) (ps : IgnorePatterns) (root : Place) : FileSystem where
  nodes := fs.nodes.filter fun e => stays ps root e.1
  workDir := fs.workDir
  places_nodup := fs.places_nodup.sublist (List.filter_sublist.map _)
  root_isDirectory := by
    obtain ⟨y, mem, dir⟩ := fs.root_isDirectory
    exact ⟨y, List.mem_filter.2 ⟨mem, stays_root⟩, dir⟩
  parent_isDirectory := by
    intro name place y mem
    obtain ⟨mem, kept⟩ := List.mem_filter.1 mem
    obtain ⟨z, there, dir⟩ := fs.parent_isDirectory name place y mem
    exact ⟨z, List.mem_filter.2 ⟨there, stays_tail kept⟩, dir⟩
  nodes_proper := fun e mem => fs.nodes_proper e (List.mem_filter.1 mem).1
  workDir_areTexts := fs.workDir_areTexts

theorem get?_prune (fs : FileSystem) (ps : IgnorePatterns) (root place : Place) :
    (fs.prune ps root).get? place = if stays ps root place then fs.get? place else none := by
  apply Option.ext
  intro y
  rw [get?_eq_some_iff, prune, List.mem_filter, ← get?_eq_some_iff]
  by_cases kept : stays ps root place = true <;> simp [kept]

end FileSystem

theorem isPruned_prune (ps : IgnorePatterns) (root : Place) (fs : FileSystem) :
    IsPruned ps root fs (fs.prune ps root) where
  kept names some visible := by
    rw [get?_prune, stays_append some, if_pos (isVisible_iff_not_isHidden.2 visible)]
  gone names hidden := by
    have some : names ≠ [] := by
      rintro rfl
      obtain ⟨part, some, suffix, _⟩ := hidden
      exact some (List.suffix_nil.1 suffix)
    rw [get?_prune, stays_append some, if_neg]
    exact fun visible => isVisible_iff_not_isHidden.1 visible hidden

/-! ## The scan of what is left -/

/-- With patterns the same is visited as without them where what they hide has been deleted. -/
theorem IsPruned.visits_eq (h : IsPruned ps root fs fs') :
    Scan.visits fs root ps = Scan.visits fs' root [] := by
  refine Scan.visits_eq_of_mem_iff fun ⟨names, x⟩ => ?_
  rw [Scan.mem_visits, Scan.mem_visits_nil, isVisible_iff_not_isHidden]
  constructor
  · rintro ⟨⟨some, found⟩, visible⟩
    exact ⟨some, (h.kept names some visible).trans found⟩
  · rintro ⟨some, found⟩
    have visible : ¬ IsHidden ps names := by
      intro hidden
      simp [h.gone names hidden] at found
    exact ⟨⟨some, (h.kept names some visible).symm.trans found⟩, visible⟩

/-- Where no link is visible, a scan with patterns gives the same answer, be it entries or an
error, as a scan without patterns of what is left when everything that the patterns hide has
been deleted. -/
theorem scan_eq_scan_of_pruned {path : Path} {mode : Mode}
    (looked : lookup fs path = .ok (root, .directory mode))
    (noLink : ∀ names link, names ≠ [] → ¬ IsHidden ps names →
      fs.get? (names ++ root) ≠ some (.link link)) :
    IsPruned ps root fs (fs.prune ps root)
      ∧ ∀ fs' path' mode', IsPruned ps root fs fs' → lookup fs' path' = .ok (root, .directory mode') →
        scan fs ps path = scan fs' [] path' := by
  constructor
  · exact isPruned_prune ps root fs
  intro fs' path' mode' pruned looked'
  have canonical : FileSystem.canonical fs path = FileSystem.canonical fs' path' := by
    simp only [FileSystem.canonical, looked, looked']
  have described : Scan.describeAll fs root (Scan.visits fs root ps)
      = Scan.describeAll fs' root (Scan.visits fs' root []) := by
    rw [← pruned.visits_eq]
    symm
    apply Scan.describeAll_congr
    intro v mem
    obtain ⟨⟨some, found⟩, visible⟩ := Scan.mem_visits.1 mem
    have visible := isVisible_iff_not_isHidden.1 visible
    apply Scan.describe_congr found ((pruned.kept v.1 some visible).trans found)
    intro link eq
    exact noLink v.1 link some visible (eq ▸ found)
  simp only [scan, looked, looked', canonical, described]

/-- Bytes that are no text. -/
def noText : Octets := .binary [0xFF] (by decide +kernel)

/-- The place of a directory tree with something in it that is no text. -/
def yardRoot : Place := [.text "p".toList]

/-- A file, and a directory that holds a file without text and one under a name without text. -/
def yard : FileSystem :=
  ((((FileSystem.empty.put yardRoot (.directory 0o755)).put
    (.text "a.txt".toList :: yardRoot) (.file (.text "kept".toList) 0o644)).put
    (.text "build".toList :: yardRoot) (.directory 0o755)).put
    (.text "out".toList :: .text "build".toList :: yardRoot) (.file noText 0o644)).put
    (noText :: .text "build".toList :: yardRoot) (.file (.text "odd".toList) 0o644)

/-- Whatever lies in a directory `build` is hidden, and the directory too. -/
def yardPatterns : IgnorePatterns := (IgnorePatterns.compile ["build/".toList]).toOption.getD []

/-- The scan does not meet the file and the name without text: it gives the answer that the
tree without the directory gives. -/
theorem scan_eq_scan_of_pruned_yard :
    yard.get? (noText :: .text "build".toList :: yardRoot) = some (.file (.text "odd".toList) 0o644)
      ∧ scan yard yardPatterns "/p".toList
        = scan (yard.prune yardPatterns yardRoot) [] "/p".toList := by
  have looked : lookup yard "/p".toList = .ok (yardRoot, .directory 0o755) := by decide +kernel
  have looked' : lookup (yard.prune yardPatterns yardRoot) "/p".toList
      = .ok (yardRoot, .directory 0o755) := by decide +kernel
  have kinds : ∀ v ∈ nodesBelow yard yardRoot, v.2.isDirectory = true ∨ v.2.isFile = true := by
    decide +kernel
  have noLink : ∀ names link, names ≠ [] → ¬ IsHidden yardPatterns names →
      yard.get? (names ++ yardRoot) ≠ some (.link link) := by
    intro names link some _ found
    simpa [Node.isDirectory, Node.isFile] using kinds _ (mem_nodesBelow.2 ⟨some, found⟩)
  obtain ⟨pruned, same⟩ := scan_eq_scan_of_pruned looked noLink
  exact ⟨by decide +kernel, same _ _ _ pruned looked'⟩

/-! ## A walk that does not enter what is hidden -/

namespace Scan

/-- The key of a node among those in one directory: what is no directory comes first, then
the bytes of the names decide. -/
def childKey (c : Name × Node) : List UInt8 := (if c.2.isDirectory then 1 else 0) :: c.1.bytes

/-- What stands in a directory, in the order of a scan. -/
def children (fs : FileSystem) (dir : Place) : List (Name × Node) :=
  ((fs.childNames dir).filterMap fun name => (fs.get? (name :: dir)).map fun x => (name, x)).mergeSort
    fun c c' => decide (childKey c ≤ childKey c')

/-- What a walk visits below the directory with the names `above` when it goes `depth` levels
deep. It passes over what is hidden, and goes through each directory right behind it. -/
def descend (fs : FileSystem) (root : Place) (ps : IgnorePatterns) :
    Nat → List Name → List (List Name × Node)
  | 0, _ => []
  | depth + 1, above =>
    ((children fs (above ++ root)).filter fun c => !ps.hide (relativePath (c.1 :: above))).flatMap
      fun c => (c.1 :: above, c.2) :: descend fs root ps depth (c.1 :: above)

theorem mem_children {dir : Place} {c : Name × Node} :
    c ∈ children fs dir ↔ fs.get? (c.1 :: dir) = some c.2 := by
  simp only [children, List.mem_mergeSort, List.mem_filterMap, mem_childNames, Option.map_eq_some_iff]
  constructor
  · rintro ⟨name, _, x, found, rfl⟩
    exact found
  · intro found
    exact ⟨c.1, ⟨c.2, found⟩, c.2, found, rfl⟩

theorem nodup_childNames (fs : FileSystem) (dir : Place) : (fs.childNames dir).Nodup := by
  have nodes : fs.nodes.Pairwise fun e e' => e.1 ≠ e'.1 := List.pairwise_map.1 fs.places_nodup
  refine List.pairwise_filterMap.2 (nodes.imp fun {e e'} differ name here name' here' => ?_)
  rintro rfl
  obtain ⟨place, x⟩ := e
  obtain ⟨place', x'⟩ := e'
  cases place with
  | nil => simp at here
  | cons n place =>
    cases place' with
    | nil => simp at here'
    | cons n' place' =>
      simp only [Place.isSame_eq_decide, decide_eq_true_eq, Option.ite_none_right_eq_some,
        Option.some.injEq] at here here'
      exact differ (by rw [here.1, here.2, here'.1, here'.2])

/-- The children of a directory are in strict order. -/
theorem pairwise_childKey (fs : FileSystem) (dir : Place) :
    (children fs dir).Pairwise fun c c' => childKey c < childKey c' := by
  apply pairwise_lt_mergeSort
  refine List.pairwise_filterMap.2 ((nodup_childNames fs dir).imp ?_)
  intro name name' differ c here c' here' same
  obtain ⟨x, _, rfl⟩ := Option.map_eq_some_iff.1 here
  obtain ⟨x', _, rfl⟩ := Option.map_eq_some_iff.1 here'
  exact differ (Octets.bytes_inj (List.cons.inj same).2)

/-- A walk visits what it reaches without passing anything hidden. -/
theorem mem_descend {depth : Nat} : (names, x) ∈ descend fs root ps depth above
    ↔ ∃ more, names = more ++ above ∧ more ≠ [] ∧ more.length ≤ depth
      ∧ fs.get? (names ++ root) = some x
      ∧ ∀ part, part ≠ [] → part <:+ more → ps.hide (relativePath (part ++ above)) = false := by
  induction depth generalizing above names with
  | zero =>
    simp only [descend, List.not_mem_nil, false_iff]
    rintro ⟨more, _, some, short, _⟩
    exact some (List.length_eq_zero_iff.1 (Nat.le_zero.1 short))
  | succ depth ih =>
    simp only [descend, List.mem_flatMap, List.mem_filter, mem_children, List.mem_cons, ih,
      Bool.not_eq_true', Prod.mk.injEq]
    constructor
    · rintro ⟨c, ⟨found, shown⟩, ⟨rfl, rfl⟩ | ⟨more, rfl, some, short, found', all⟩⟩
      · refine ⟨[c.1], rfl, by simp, by simp, found, fun part nonempty suffix => ?_⟩
        obtain rfl : part = [c.1] := by
          rcases List.suffix_cons_iff.1 suffix with whole | nothing
          · exact whole
          · exact absurd (List.suffix_nil.1 nothing) nonempty
        exact shown
      · refine ⟨more ++ [c.1], by simp, by simp, by simpa using short, found',
          fun part nonempty suffix => ?_⟩
        rcases List.suffix_concat_iff.1 suffix with rfl | ⟨inner, rfl, inside⟩
        · exact absurd rfl nonempty
        by_cases here : inner = []
        · subst here
          exact shown
        · simpa using all inner here inside
    · rintro ⟨more, rfl, some, short, found, all⟩
      rcases List.eq_nil_or_concat more with none | ⟨deeper, name, rfl⟩
      · exact absurd none some
      simp only [List.concat_eq_append, List.append_assoc, List.singleton_append] at found
      have shown : ps.hide (relativePath (name :: above)) = false :=
        all [name] (by simp) (by simp)
      by_cases here : deeper = []
      · subst here
        exact ⟨(name, x), ⟨found, shown⟩, .inl ⟨rfl, rfl⟩⟩
      obtain ⟨mode, dir⟩ := get?_of_isDirectoryAt (isDirectoryAt_of_append found here)
      refine ⟨(name, .directory mode), ⟨dir, shown⟩, .inr ⟨deeper, by simp, here, ?_, ?_, ?_⟩⟩
      · simpa using short
      · simpa using found
      · intro part nonempty suffix
        obtain ⟨front, rfl⟩ := suffix
        simpa using all (part ++ [name]) (by simp) ⟨front, by simp⟩

/-- The key of a node that a walk visits begins with that of the child of the directory
through which it is reached. -/
theorem childKey_prefix {c : Name × Node} (found : fs.get? (c.1 :: (above ++ root)) = some c.2)
    {depth : Nat} (mem : v ∈ (c.1 :: above, c.2) :: descend fs root ps depth (c.1 :: above)) :
    trail above ++ [childKey c] <+: key v.1 v.2 := by
  rcases List.mem_cons.1 mem with rfl | deeper
  · exact List.prefix_rfl
  · obtain ⟨more, eq, some, _, found', _⟩ := mem_descend.1 deeper
    rw [eq, List.append_assoc, List.cons_append] at found'
    obtain ⟨mode, dir⟩ := get?_of_isDirectoryAt (isDirectoryAt_of_append found' some)
    have isDir : c.2 = .directory mode := Option.some.inj (found.symm.trans dir)
    have same : trail above ++ [childKey c] = trail (c.1 :: above) := by
      simp [childKey, isDir, Node.isDirectory, trail]
    rw [eq, key_append some, same]
    exact List.prefix_append _ _

/-- Of lists that begin with lists of one length, the first difference decides. -/
theorem append_lt_append {low high rest rest' : List (List UInt8)} (length : low.length = high.length)
    (less : low < high) : low ++ rest < high ++ rest' := by
  induction low generalizing high with
  | nil =>
    rw [List.length_eq_zero_iff.1 length.symm] at less
    exact absurd less (List.lt_irrefl _)
  | cons a low ih =>
    cases high with
    | nil => simp at length
    | cons b high =>
      rw [List.cons_lt_cons_iff] at less
      rw [List.cons_append, List.cons_append, List.cons_lt_cons_iff]
      exact less.imp_right fun ⟨same, less⟩ => ⟨same, ih (by simpa using length) less⟩

/-- A walk visits nodes in the order of their keys. -/
theorem pairwise_descend (depth : Nat) (above : List Name) :
    (descend fs root ps depth above).Pairwise fun v v' => key v.1 v.2 < key v'.1 v'.2 := by
  induction depth generalizing above with
  | zero => exact List.Pairwise.nil
  | succ depth ih =>
    refine List.pairwise_flatMap.2 ⟨fun c mem => List.pairwise_cons.2 ⟨fun v deeper => ?_, ih _⟩, ?_⟩
    · have found := mem_children.1 (List.mem_of_mem_filter mem)
      obtain ⟨rest, eq⟩ := childKey_prefix found (List.mem_cons_of_mem _ deeper)
      obtain ⟨more, names, some, _⟩ := mem_descend.1 deeper
      have differ : key (c.1 :: above) c.2 ≠ key v.1 v.2 := by
        intro same
        have own := key_inj (List.cons_ne_nil _ _) (by simp [names]) same
        rw [names] at own
        exact some (List.append_left_eq_self.1 own.symm)
      have le : key (c.1 :: above) c.2 ≤ key v.1 v.2 := eq ▸ List.le_append_left
      exact (List.le_iff_lt_or_eq.1 le).resolve_right differ
    · refine ((pairwise_childKey fs _).filter _).imp_of_mem ?_
      intro c c' mem mem' less v inside v' inside'
      obtain ⟨rest, eq⟩ := childKey_prefix (mem_children.1 (List.mem_of_mem_filter mem)) inside
      obtain ⟨rest', eq'⟩ := childKey_prefix (mem_children.1 (List.mem_of_mem_filter mem')) inside'
      rw [← eq, ← eq']
      refine append_lt_append (by simp) ?_
      exact List.append_left_lt (List.cons_lt_cons_iff.2 (.inl less))

/-- The nodes that a scan visits are those of a walk that is deep enough, in the order of the
walk. -/
theorem visits_eq_descend {depth : Nat}
    (deep : ∀ names x, fs.get? (names ++ root) = some x → names.length ≤ depth) :
    visits fs root ps = descend fs root ps depth [] := by
  refine visits_eq_of_pairwise (pairwise_descend depth []) fun ⟨names, x⟩ => ?_
  rw [mem_visits, mem_descend, isVisible_iff]
  simp only [List.append_nil]
  constructor
  · rintro ⟨⟨some, found⟩, shown⟩
    exact ⟨names, rfl, some, deep names x found, found, shown⟩
  · rintro ⟨_, rfl, some, _, found, shown⟩
    exact ⟨⟨some, found⟩, shown⟩

/-- Some walk is deep enough. -/
theorem exists_visits_eq_descend (fs : FileSystem) (root : Place) (ps : IgnorePatterns) :
    ∃ levels, ∀ depth ≥ levels, visits fs root ps = descend fs root ps depth [] := by
  refine ⟨(fs.nodes.map fun e => e.1.length).sum, fun depth enough =>
    visits_eq_descend fun names x found => ?_⟩
  have here : (names ++ root).length ∈ fs.nodes.map fun e => e.1.length :=
    List.mem_map.2 ⟨_, mem_of_get? found, rfl⟩
  have bound := List.le_sum_of_mem here
  rw [List.length_append] at bound
  omega

end Scan

end Scaffold
