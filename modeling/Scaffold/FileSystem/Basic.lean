import Scaffold.FileSystem.Mode
import Scaffold.Path

/-!
# File systems

A file system is a finite table of nodes. A node stands at a place, and the
place of a node is the list of the names that lead to it, the innermost first:
its own name in front of the place of the directory that holds it. The root is
the empty place.

Four facts hold of every table, so they belong to the type. No place occurs
twice, the root is a directory, whatever stands somewhere stands in a directory,
and every node has a proper name. `put` and `remove` are the only ways to change a
table, and they keep these facts. The view of a table is `get?`; `get?_put` and `get?_remove`
say what the two changes do to it.

A name need not be a text. Relative paths, though, start from a place whose names
all are, because that place has to be written as a path itself.
-/

namespace Scaffold

/-- A file name is a string of bytes. -/
abbrev Name := Octets

/-- The names that lead to a node, its own name first. -/
abbrev Place := List Name

/-- All names are texts. -/
def AreTexts (names : List Name) : Prop := ∀ name ∈ names, ∃ t, name = .text t

instance (names : List Name) : Decidable (AreTexts names) :=
  decidable_of_iff (∀ name ∈ names, name.text?.isSome = true)
    (forall₂_congr fun name _ => by simp [Option.isSome_iff_exists, Octets.text?_eq_some_iff])

theorem AreTexts.text_lossy {names : List Name} {name : Name} (h : AreTexts names)
    (mem : name ∈ names) : .text name.lossy = name := by
  obtain ⟨t, rfl⟩ := h name mem
  rfl

theorem areTexts_nil : AreTexts [] := by simp [AreTexts]

theorem AreTexts.tail {names : List Name} (h : AreTexts names) : AreTexts names.tail :=
  fun name mem => h name (List.mem_of_mem_tail mem)

theorem AreTexts.cons {names : List Name} (h : AreTexts names) (t : Text) :
    AreTexts (.text t :: names) := by
  intro name mem
  rcases List.mem_cons.1 mem with rfl | mem
  · exact ⟨t, rfl⟩
  · exact h name mem

namespace Place

/-- Whether two places lie equally deep. -/
def isLevelWith : Place → Place → Bool
  | [], [] => true
  | _ :: p, _ :: q => isLevelWith p q
  | _, _ => false

@[simp] theorem isLevelWith_self (p : Place) : isLevelWith p p = true := by
  induction p with
  | nil => rfl
  | cons _ _ ih => exact ih

/-- Whether two places are the same. Places of different depths are told apart
without a look at the names. -/
def isSame (p q : Place) : Bool := isLevelWith p q && p = q

@[simp] theorem isSame_eq_decide (p q : Place) : isSame p q = decide (p = q) := by
  by_cases h : p = q <;> simp [isSame, h]

end Place

/-- What can stand at a place. -/
inductive Node where
  | file (content : Octets) (mode : Mode)
  | directory (mode : Mode)
  | link (target : Path)
  deriving DecidableEq

namespace Node

/-- Whether the node is a directory. -/
def isDirectory : Node → Bool
  | directory _ => true
  | _ => false

/-- Whether the node is a file. -/
def isFile : Node → Bool
  | file .. => true
  | _ => false

/-- The same node with other permission bits. A link has none of its own. -/
def withMode (mode : Mode) : Node → Node
  | file content _ => file content mode
  | directory _ => directory mode
  | link target => link target

@[simp] theorem isDirectory_withMode (mode : Mode) (x : Node) :
    (x.withMode mode).isDirectory = x.isDirectory := by
  cases x <;> rfl

theorem isDirectory_iff {x : Node} : x.isDirectory = true ↔ ∃ mode, x = directory mode := by
  cases x <;> simp [isDirectory]

end Node

/-- How many bytes a name may have. -/
def maxNameLength : Nat := 255

/-- Whether a string of bytes can be the name of a node. It is not empty, not too
long, and no dot name, and holds neither a slash nor a NUL byte. -/
def isNodeName : Name → Bool
  | .text t =>
    t ≠ [] && t ≠ ['.'] && t ≠ ['.', '.'] && t.all (fun c => c ≠ '/' && c ≠ '\x00')
      && Text.fits maxNameLength t
  | .binary bytes _ =>
    bytes.all (fun b => b ≠ 0x2F && b ≠ 0) && bytes.length ≤ maxNameLength

/-- How many bytes a path may have. -/
def maxPathLength : Nat := 4095

/-- Whether a path can be the target of a link. -/
def isLinkTarget (target : Path) : Bool :=
  target ≠ [] && target.all (· ≠ '\x00') && Text.fits maxPathLength target

/-- Whether a node can stand at a place as far as its name and its own contents
say. -/
def isProper : Place × Node → Bool
  | (place, x) =>
    place.head?.all isNodeName && match x with
      | .link target => isLinkTarget target
      | _ => true

/-- A finite table of nodes in which every node stands in a directory. -/
structure FileSystem where
  /-- The nodes and their places. -/
  nodes : List (Place × Node)
  /-- The place from which relative paths start. -/
  workDir : Place
  /-- No place occurs twice. -/
  places_nodup : (nodes.map Prod.fst).Nodup
  /-- The root is a directory. -/
  root_isDirectory : ∃ x, ([], x) ∈ nodes ∧ x.isDirectory = true
  /-- What holds a node is a directory. -/
  parent_isDirectory : ∀ name place x, (name :: place, x) ∈ nodes →
    ∃ y, (place, y) ∈ nodes ∧ y.isDirectory = true
  /-- Every node has a proper name. -/
  nodes_proper : ∀ e ∈ nodes, isProper e = true
  /-- The names of the place from which relative paths start are texts. -/
  workDir_areTexts : AreTexts workDir

namespace FileSystem

/-- The node at a place. -/
def get? (fs : FileSystem) (p : Place) : Option Node :=
  (fs.nodes.find? fun e => Place.isSame e.1 p).map Prod.snd

/-- Whether a directory stands at a place. -/
def isDirectoryAt (fs : FileSystem) (p : Place) : Bool :=
  (fs.get? p).any Node.isDirectory

/-- The names in the directory at a place. -/
def childNames (fs : FileSystem) (p : Place) : List Name :=
  fs.nodes.filterMap fun
    | (name :: q, _) => if Place.isSame q p then some name else none
    | ([], _) => none

theorem mem_of_get? {fs : FileSystem} {p : Place} {x : Node} (h : fs.get? p = some x) :
    (p, x) ∈ fs.nodes := by
  obtain ⟨⟨q, y⟩, hfind, rfl⟩ := Option.map_eq_some_iff.1 h
  have hq := List.find?_some hfind
  simp only [Place.isSame_eq_decide, decide_eq_true_eq] at hq
  exact hq ▸ List.mem_of_find?_eq_some hfind

private theorem find?_eq_of_mem {nodes : List (Place × Node)} {p : Place} {x : Node}
    (nodup : (nodes.map Prod.fst).Nodup) (h : (p, x) ∈ nodes) :
    nodes.find? (fun e => e.1 = p) = some (p, x) := by
  induction nodes with
  | nil => simp at h
  | cons e rest ih =>
    rw [List.map_cons, List.nodup_cons] at nodup
    rcases List.mem_cons.1 h with rfl | h
    · simp
    · have hne : e.1 ≠ p := by
        rintro rfl
        exact nodup.1 (List.mem_map.2 ⟨_, h, rfl⟩)
      rw [List.find?_cons_of_neg (by simpa using hne)]
      exact ih nodup.2 h

theorem get?_of_mem {fs : FileSystem} {p : Place} {x : Node} (h : (p, x) ∈ fs.nodes) :
    fs.get? p = some x := by
  simp [get?, find?_eq_of_mem fs.places_nodup h]

/-- The view of a table and its list of nodes hold the same pairs. -/
theorem get?_eq_some_iff {fs : FileSystem} {p : Place} {x : Node} :
    fs.get? p = some x ↔ (p, x) ∈ fs.nodes :=
  ⟨mem_of_get?, get?_of_mem⟩

theorem isDirectoryAt_iff {fs : FileSystem} {p : Place} :
    fs.isDirectoryAt p = true ↔ ∃ x, (p, x) ∈ fs.nodes ∧ x.isDirectory = true := by
  simp [isDirectoryAt, Option.any_eq_true, get?_eq_some_iff]

@[simp] theorem isDirectoryAt_root (fs : FileSystem) : fs.isDirectoryAt [] = true :=
  isDirectoryAt_iff.2 fs.root_isDirectory

/-- Whatever stands somewhere stands in a directory. -/
theorem isDirectoryAt_of_get?_cons {fs : FileSystem} {name : Name} {p : Place} {x : Node}
    (h : fs.get? (name :: p) = some x) : fs.isDirectoryAt p = true :=
  isDirectoryAt_iff.2 (fs.parent_isDirectory name p x (mem_of_get? h))

theorem mem_childNames {fs : FileSystem} {p : Place} {name : Name} :
    name ∈ fs.childNames p ↔ ∃ x, fs.get? (name :: p) = some x := by
  simp only [childNames, List.mem_filterMap, get?_eq_some_iff]
  constructor
  · rintro ⟨⟨q, x⟩, hmem, h⟩
    cases q with
    | nil => simp at h
    | cons n q =>
      simp only [Place.isSame_eq_decide, decide_eq_true_eq, Option.ite_none_right_eq_some,
        Option.some.injEq] at h
      obtain ⟨rfl, rfl⟩ := h
      exact ⟨x, hmem⟩
  · rintro ⟨x, hmem⟩
    exact ⟨(name :: p, x), hmem, by simp⟩

/-! ## Changing a table -/

/-- Whether `x` may stand at `p`: it must be a proper node in a directory, and
only a directory may stand above other nodes. -/
def admits (fs : FileSystem) (p : Place) (x : Node) : Bool :=
  (match p with
    | [] => x.isDirectory
    | _ :: q => fs.isDirectoryAt q)
  && (x.isDirectory || fs.childNames p = [])
  && isProper (p, x)

private def others (fs : FileSystem) (p : Place) : List (Place × Node) :=
  fs.nodes.filter fun e => !Place.isSame e.1 p

private theorem mem_others {fs : FileSystem} {p : Place} {e : Place × Node} :
    e ∈ fs.others p ↔ e ∈ fs.nodes ∧ e.1 ≠ p := by
  simp [others]

private theorem nodup_others (fs : FileSystem) (p : Place) :
    ((fs.others p).map Prod.fst).Nodup :=
  fs.places_nodup.sublist (List.filter_sublist.map _)

private theorem not_mem_others (fs : FileSystem) (p : Place) :
    p ∉ (fs.others p).map Prod.fst := by
  simp [others]

/-- Put a node at a place, in the stead of what may stand there. Where the
table does not admit the node, nothing changes. -/
def put (fs : FileSystem) (p : Place) (x : Node) : FileSystem :=
  if h : fs.admits p x = true then
    { nodes := (p, x) :: fs.others p
      workDir := fs.workDir
      places_nodup := List.nodup_cons.2 ⟨fs.not_mem_others p, fs.nodup_others p⟩
      root_isDirectory := by
        by_cases hp : p = []
        · subst hp
          simp only [admits, Bool.and_eq_true] at h
          exact ⟨x, List.mem_cons_self, h.1.1⟩
        · obtain ⟨y, hy, hdir⟩ := fs.root_isDirectory
          exact ⟨y, List.mem_cons_of_mem _ (mem_others.2 ⟨hy, Ne.symm hp⟩), hdir⟩
      parent_isDirectory := by
        intro name q y hmem
        rcases List.mem_cons.1 hmem with heq | hmem
        · simp only [Prod.mk.injEq] at heq
          obtain ⟨rfl, rfl⟩ := heq
          simp only [admits, Bool.and_eq_true] at h
          obtain ⟨z, hz, hdir⟩ := isDirectoryAt_iff.1 h.1.1
          refine ⟨z, List.mem_cons_of_mem _ (mem_others.2 ⟨hz, ?_⟩), hdir⟩
          exact fun hq => List.cons_ne_self name q hq.symm
        · have hold := (mem_others.1 hmem).1
          by_cases hq : q = p
          · subst hq
            simp only [admits, Bool.and_eq_true, Bool.or_eq_true, decide_eq_true_eq] at h
            refine ⟨x, List.mem_cons_self, h.1.2.resolve_right fun hnone => ?_⟩
            have hchild := mem_childNames.2 ⟨y, get?_of_mem hold⟩
            simp [hnone] at hchild
          · obtain ⟨z, hz, hdir⟩ := fs.parent_isDirectory name q y hold
            exact ⟨z, List.mem_cons_of_mem _ (mem_others.2 ⟨hz, hq⟩), hdir⟩
      nodes_proper := by
        intro e hmem
        rcases List.mem_cons.1 hmem with rfl | hmem
        · simp only [admits, Bool.and_eq_true] at h
          exact h.2
        · exact fs.nodes_proper e (mem_others.1 hmem).1
      workDir_areTexts := fs.workDir_areTexts }
  else fs

/-- Take away a node together with everything below it. The root stays. -/
def remove (fs : FileSystem) (p : Place) : FileSystem :=
  if h : p = [] then fs
  else
    { nodes := fs.nodes.filter fun e => !p.isSuffixOf e.1
      workDir := fs.workDir
      places_nodup := fs.places_nodup.sublist (List.filter_sublist.map _)
      root_isDirectory := by
        obtain ⟨y, hy, hdir⟩ := fs.root_isDirectory
        refine ⟨y, List.mem_filter.2 ⟨hy, ?_⟩, hdir⟩
        simp only [Bool.not_eq_true', Bool.eq_false_iff, ne_eq, List.isSuffixOf_iff_suffix,
          List.suffix_nil]
        exact h
      parent_isDirectory := by
        intro name q y hmem
        obtain ⟨hold, hkeep⟩ := List.mem_filter.1 hmem
        obtain ⟨z, hz, hdir⟩ := fs.parent_isDirectory name q y hold
        refine ⟨z, List.mem_filter.2 ⟨hz, ?_⟩, hdir⟩
        simp only [Bool.not_eq_true', Bool.eq_false_iff, ne_eq, List.isSuffixOf_iff_suffix]
          at hkeep ⊢
        exact fun hs => hkeep (hs.trans (List.suffix_cons name q))
      nodes_proper := fun e hmem => fs.nodes_proper e (List.mem_filter.1 hmem).1
      workDir_areTexts := fs.workDir_areTexts }

/-- An admitted node is found where it was put, and nowhere else does anything
change. -/
theorem get?_put {fs : FileSystem} {p : Place} {x : Node} (h : fs.admits p x = true) (q : Place) :
    (fs.put p x).get? q = if q = p then some x else fs.get? q := by
  apply Option.ext
  intro y
  rw [get?_eq_some_iff, put, dif_pos h]
  by_cases hq : q = p
  · subst hq
    simp only [List.mem_cons, Prod.mk.injEq, true_and, if_true, Option.some.injEq, mem_others]
    constructor
    · rintro (rfl | ⟨_, hne⟩)
      · rfl
      · exact absurd rfl hne
    · rintro rfl
      exact Or.inl rfl
  · simp only [List.mem_cons, Prod.mk.injEq, hq, false_and, false_or, mem_others, ne_eq,
      not_false_eq_true, and_true, if_false, get?_eq_some_iff]

/-- After a removal nothing is found at or below the place, and everything else
is as before. -/
theorem get?_remove {fs : FileSystem} {p : Place} (h : p ≠ []) (q : Place) :
    (fs.remove p).get? q = if p.isSuffixOf q then none else fs.get? q := by
  apply Option.ext
  intro y
  rw [get?_eq_some_iff, remove, dif_neg h]
  simp only [List.mem_filter, Bool.not_eq_true']
  by_cases hq : p.isSuffixOf q = true
  · simp [hq]
  · simp [hq, get?_eq_some_iff]

@[simp] theorem workDir_put (fs : FileSystem) (p : Place) (x : Node) :
    (fs.put p x).workDir = fs.workDir := by
  unfold put
  split <;> rfl

@[simp] theorem workDir_remove (fs : FileSystem) (p : Place) :
    (fs.remove p).workDir = fs.workDir := by
  unfold remove
  split <;> rfl

/-- A table that holds an empty root. -/
def empty : FileSystem where
  nodes := [([], .directory 0o755)]
  workDir := []
  places_nodup := by simp
  root_isDirectory := ⟨_, List.mem_cons_self, rfl⟩
  parent_isDirectory := by simp
  nodes_proper := by simp [isProper]
  workDir_areTexts := areTexts_nil

/-- The same table with another place for relative paths to start from. -/
def withWorkDir (fs : FileSystem) (p : Place) (h : AreTexts p) : FileSystem :=
  { fs with workDir := p, workDir_areTexts := h }

@[simp] theorem get?_withWorkDir (fs : FileSystem) (p q : Place) (h : AreTexts p) :
    (fs.withWorkDir p h).get? q = fs.get? q := rfl

end FileSystem

end Scaffold
