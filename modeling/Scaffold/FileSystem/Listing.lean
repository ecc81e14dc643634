import Scaffold.FileSystem.Resolve

/-!
# Listing a directory tree

What lies below a directory, read as one ordered list: every directory comes
right before its contents, and the names in one directory are in the order of
their bytes. The order is that of the names from the directory inwards, compared
one after the other, so it needs no recursion over the tree.
-/

namespace Scaffold

namespace FileSystem

/-- The names that lead from `root` to `place`, the innermost first, if `place`
lies below `root`. -/
def below? (root place : Place) : Option (List Name) :=
  let names := place.take (place.length - root.length)
  if names ≠ [] ∧ names ++ root = place then some names else none

/-- Everything below a place, with the names that lead to it from there, the
innermost first. -/
def nodesBelow (fs : FileSystem) (root : Place) : List (List Name × Node) :=
  fs.nodes.filterMap fun (place, x) => (below? root place).map fun names => (names, x)

/-- The names joined by slashes, the outermost first. -/
def relativePath (names : List Name) : Path :=
  Text.joinWith '/' (names.reverse.map Octets.lossy)

/-- The key by which a listing is ordered. -/
def listingKey (names : List Name) : List (List UInt8) := names.reverse.map Octets.bytes

/-- Everything below a place in the order of the listing. -/
def listing (fs : FileSystem) (root : Place) : List (List Name × Node) :=
  (nodesBelow fs root).mergeSort fun a b => decide (listingKey a.1 ≤ listingKey b.1)

@[simp] theorem below?_append {names : List Name} (root : Place) (h : names ≠ []) :
    below? root (names ++ root) = some names := by
  simp [below?, h]

theorem below?_eq_some_iff {root place : Place} {names : List Name} :
    below? root place = some names ↔ names ≠ [] ∧ place = names ++ root := by
  constructor
  · intro h
    simp only [below?] at h
    split at h
    · rename_i hc
      simp only [Option.some.injEq] at h
      exact ⟨h ▸ hc.1, h ▸ hc.2.symm⟩
    · simp at h
  · rintro ⟨hne, rfl⟩
    exact below?_append root hne

/-- A listing holds what stands below the place, and nothing else. -/
theorem mem_listing {fs : FileSystem} {root : Place} {names : List Name} {x : Node} :
    (names, x) ∈ fs.listing root ↔ names ≠ [] ∧ fs.get? (names ++ root) = some x := by
  simp only [listing, List.mem_mergeSort, nodesBelow, List.mem_filterMap, get?_eq_some_iff]
  constructor
  · rintro ⟨⟨place, y⟩, hmem, h⟩
    obtain ⟨found, hfound, heq⟩ := Option.map_eq_some_iff.1 h
    simp only [Prod.mk.injEq] at heq
    obtain ⟨rfl, rfl⟩ := heq
    obtain ⟨hne, rfl⟩ := below?_eq_some_iff.1 hfound
    exact ⟨hne, hmem⟩
  · rintro ⟨hne, hmem⟩
    exact ⟨(names ++ root, x), hmem, by simp [hne]⟩

end FileSystem

end Scaffold
