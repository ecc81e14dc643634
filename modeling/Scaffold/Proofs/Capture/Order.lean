import Mathlib.Data.List.Perm.Basic
import Scaffold.Proofs.Capture.Nested
import Scaffold.Proofs.Text.Utf8

/-!
# The order of a scan

The key of a node begins with the key of each directory that it is in. So in the order of
the keys, whatever lies between a directory and a node in it is in the directory too. Names
are told apart by their bytes, so no two nodes have one key: the order of a scan is decided
by what there is, and not by how it is listed.
-/

namespace Scaffold

open FileSystem

variable {names more above : List Name}

/-! ## Keys -/

namespace Scan

variable {fs fs' : FileSystem} {root : Place} {ps : IgnorePatterns} {x y : Node} {name other : Name}
  {low rest between : List (List UInt8)}

/-- What lies between a key and one that begins with it begins with it too. -/
theorem prefix_of_le_of_le (first : low ≤ between) (last : between ≤ low ++ rest) :
    low <+: between := by
  induction low generalizing between with
  | nil => exact List.nil_prefix
  | cons a low ih =>
    cases between with
    | nil => exact absurd (List.le_nil.1 first) (List.cons_ne_nil _ _)
    | cons b between =>
      rw [List.cons_le_cons_iff] at first
      rw [List.cons_append, List.cons_le_cons_iff] at last
      rcases first with less | ⟨rfl, first⟩
      · rcases last with less' | ⟨rfl, _⟩
        · exact absurd (List.lt_trans less less') (List.lt_irrefl _)
        · exact absurd less (List.lt_irrefl _)
      · rcases last with less | ⟨_, last⟩
        · exact absurd less (List.lt_irrefl _)
        · exact List.cons_prefix_cons.2 ⟨rfl, ih first last⟩

/-- What the key of everything in the directory with these names begins with. -/
def trail (names : List Name) : List (List UInt8) := names.reverse.map fun n => 1 :: n.bytes

theorem key_cons : key (name :: above) x
    = trail above ++ [(if x.isDirectory then 1 else 0) :: name.bytes] :=
  rfl

theorem trail_append : trail (more ++ names) = trail names ++ trail more := by
  simp [trail]

theorem key_eq_trail {mode : Mode} (some : names ≠ []) : key names (.directory mode) = trail names := by
  obtain ⟨name, above, rfl⟩ := List.exists_cons_of_ne_nil some
  exact key_directory name above mode

theorem key_append (some : more ≠ []) : key (more ++ names) x = trail names ++ key more x := by
  obtain ⟨name, above, rfl⟩ := List.exists_cons_of_ne_nil some
  rw [List.cons_append, key_cons, key_cons, trail_append, List.append_assoc]

theorem trail_inj (same : trail names = trail more) : names = more := by
  have bytes := congrArg (List.map List.tail) same
  refine List.map_injective_iff.2 (fun _ _ => Octets.bytes_inj) ?_
  simpa [trail, Function.comp_def] using bytes

/-- A node is known by its key. -/
theorem key_inj (some : names ≠ []) (some' : more ≠ []) (same : key names x = key more y) :
    names = more := by
  obtain ⟨name, above, rfl⟩ := List.exists_cons_of_ne_nil some
  obtain ⟨other, below, rfl⟩ := List.exists_cons_of_ne_nil some'
  rw [key_cons, key_cons] at same
  obtain ⟨trails, last⟩ := List.append_inj' same rfl
  have bytes : name.bytes = other.bytes := (List.cons.inj (List.cons.inj last).1).2
  rw [Octets.bytes_inj bytes, trail_inj trails]

/-- A key that begins with the trail of a directory is that of a node in it, or its own. -/
theorem suffix_of_trail_prefix (some : more ≠ []) (part : trail names <+: key more x) :
    names <:+ more := by
  obtain ⟨name, above, rfl⟩ := List.exists_cons_of_ne_nil some
  obtain ⟨rest, whole⟩ := part
  rw [key_cons] at whole
  rcases List.append_eq_append_iff.1 whole with ⟨extra, trails, _⟩ | ⟨extra, trails, last⟩
  · obtain ⟨outer, inner, parts, same, _⟩ := List.map_eq_append_iff.1 trails
    have here : names = outer.reverse :=
      trail_inj (by rw [← same, trail, List.reverse_reverse])
    refine ⟨name :: inner.reverse, ?_⟩
    rw [here, List.cons_append, ← List.reverse_append, ← parts, List.reverse_reverse]
  · rcases List.append_eq_singleton_iff.1 last.symm with ⟨none, _⟩ | ⟨own, _⟩
    · rw [none, List.append_nil] at trails
      rw [trail_inj trails]
      exact List.suffix_cons _ _
    · have isDir : key (name :: above) x = trail names := by rw [key_cons, trails, own]
      cases names with
      | nil => exact List.nil_suffix
      | cons n names =>
        have same : key (name :: above) x = key (n :: names) (.directory 0) :=
          isDir.trans (key_eq_trail (List.cons_ne_nil _ _)).symm
        rw [key_inj (List.cons_ne_nil _ _) (List.cons_ne_nil _ _) same]

/-- What is sorted between a directory and something in it is in it. -/
theorem suffix_of_key_le {mode : Mode} (some : names ≠ []) (some' : above ≠ []) (deep : more ≠ [])
    (first : key names (.directory mode) ≤ key above x) (last : key above x ≤ key (more ++ names) y) :
    names <:+ above := by
  rw [key_eq_trail some] at first
  rw [key_append deep] at last
  exact suffix_of_trail_prefix some' (prefix_of_le_of_le first last)

/-! ## The order of what is visited -/

/-- What is visited is in strict order. -/
theorem pairwise_key_lt (fs : FileSystem) (root : Place) (ps : IgnorePatterns) :
    (visits fs root ps).Pairwise fun v v' => key v.1 v.2 < key v'.1 v'.2 := by
  have both := (pairwise_key fs root ps).and (pairwise_visits fs root ps)
  refine both.imp_of_mem fun {v v'} mem mem' ⟨le, differ⟩ => ?_
  rcases List.le_iff_lt_or_eq.1 le with less | same
  · exact less
  · exact absurd (key_inj (mem_visits.1 mem).1.1 (mem_visits.1 mem').1.1 same) differ

/-- What is visited is known by its members: there is one way to bring them in order. -/
theorem visits_eq_of_pairwise {vs : List (List Name × Node)}
    (sorted : vs.Pairwise fun v v' => key v.1 v.2 < key v'.1 v'.2)
    (same : ∀ v, v ∈ visits fs root ps ↔ v ∈ vs) : visits fs root ps = vs := by
  have nodup {vs : List (List Name × Node)}
      (sorted : vs.Pairwise fun v v' => key v.1 v.2 < key v'.1 v'.2) : vs.Nodup :=
    sorted.imp fun {v v'} less same => absurd (same ▸ less) (List.lt_irrefl _)
  have sorted' := pairwise_key_lt fs root ps
  have perm := (List.perm_ext_iff_of_nodup (nodup sorted') (nodup sorted)).2 same
  refine perm.eq_of_pairwise (fun v v' _ _ less less' => ?_) sorted' sorted
  exact absurd (List.lt_trans less less') (List.lt_irrefl _)

theorem visits_eq_of_mem_iff {ps' : IgnorePatterns}
    (same : ∀ v, v ∈ visits fs root ps ↔ v ∈ visits fs' root ps') :
    visits fs root ps = visits fs' root ps' :=
  visits_eq_of_pairwise (pairwise_key_lt fs' root ps') same

/-- What is visited is decided by the nodes that are visible. -/
theorem visits_congr (same : ∀ names, names ≠ [] → isVisible ps names = true →
      fs'.get? (names ++ root) = fs.get? (names ++ root)) :
    visits fs' root ps = visits fs root ps := by
  refine visits_eq_of_mem_iff fun ⟨names, x⟩ => ?_
  rw [mem_visits, mem_visits]
  constructor
  · rintro ⟨⟨some, found⟩, visible⟩
    exact ⟨⟨some, same names some visible ▸ found⟩, visible⟩
  · rintro ⟨⟨some, found⟩, visible⟩
    exact ⟨⟨some, (same names some visible).trans found⟩, visible⟩

end Scan

end Scaffold
