import Scaffold.FileSystem.Listing
import Scaffold.Proofs.FileSystem.Names
import Scaffold.Proofs.Instantiation.Plan

/-!
# The path of a place

A place whose names are texts has a path of its own, which leads to it as long as it is not
too long: no link is met on the way, for the way goes over directories alone. So a node
that is no link is found under the path of its place.
-/

namespace Scaffold

namespace FileSystem

variable {fs : FileSystem} {place front back dir base : Place} {names : List Name} {x : Node}
  {t : Text} {mode : Mode}

/-! ## Names of nodes -/

/-- Above a node there are directories. -/
theorem isDirectoryAt_of_append (found : fs.get? (front ++ back) = some x) (some : front ≠ []) :
    fs.isDirectoryAt back = true := by
  induction front generalizing x with
  | nil => exact absurd rfl some
  | cons name front ih =>
    have above : fs.isDirectoryAt (front ++ back) = true := isDirectoryAt_of_get?_cons found
    by_cases last : front = []
    · rwa [last] at above
    · obtain ⟨mode, there⟩ := get?_of_isDirectoryAt above
      exact ih there last

theorem isStep_of_isNodeName (h : isNodeName (.text t) = true) :
    IsStep t ∧ Text.fits maxNameLength t = true := by
  simp only [isNodeName, Bool.and_eq_true, decide_eq_true_eq, List.all_eq_true] at h
  obtain ⟨⟨⟨⟨nonempty, notHere⟩, notUp⟩, chars⟩, fits⟩ := h
  refine ⟨⟨⟨nonempty, fun mem => ?_⟩, by simp [Path.isIdle, nonempty, notHere], notUp,
    fun mem => ?_⟩, fits⟩
  · simpa using chars _ mem
  · simpa using chars _ mem

/-- Every name on the way to a node is a proper one. -/
theorem isNodeName_of_mem {name : Name} (found : fs.get? place = some x) (mem : name ∈ place) :
    isNodeName name = true := by
  obtain ⟨front, back, rfl⟩ := List.append_of_mem mem
  obtain ⟨y, here⟩ : ∃ y, fs.get? (name :: back) = some y := by
    by_cases first : front = []
    · exact ⟨x, by simpa [first] using found⟩
    · obtain ⟨mode, there⟩ := get?_of_isDirectoryAt (isDirectoryAt_of_append found first)
      exact ⟨_, there⟩
  have proper := fs.nodes_proper _ (mem_of_get? here)
  simp only [isProper, List.head?_cons, Option.all_some, Bool.and_eq_true] at proper
  exact proper.1

/-- A text among the names of a node is a step of a path. -/
theorem isStep_of_mem (found : fs.get? place = some x) (mem : .text t ∈ place) :
    IsStep t ∧ Text.fits maxNameLength t = true :=
  isStep_of_isNodeName (isNodeName_of_mem found mem)

/-- The names as texts, the outermost first. -/
def texts (names : List Name) : List Text := names.reverse.map Octets.lossy

theorem texts_cons (t : Text) (above : List Name) :
    texts (.text t :: above) = texts above ++ [t] := by
  simp [texts]

theorem placeOf_texts (h : AreTexts names) (dir : Place) :
    placeOf dir (texts names) = names ++ dir := by
  have same : names.map (fun name => Octets.text name.lossy) = names :=
    (List.map_congr_left fun name => h.text_lossy).trans (List.map_id _)
  rw [placeOf, texts, List.map_reverse, List.map_reverse, List.reverse_reverse, List.map_map]
  exact congrArg (· ++ dir) same

/-- Texts among the names of a node are steps. -/
theorem isStep_of_mem_texts (found : fs.get? (names ++ dir) = some x) (h : AreTexts names) :
    ∀ t ∈ texts names, IsStep t ∧ Text.fits maxNameLength t = true := by
  intro t mem
  obtain ⟨name, reversed, rfl⟩ := List.mem_map.1 mem
  have mem := List.mem_reverse.1 reversed
  refine isStep_of_mem found (List.mem_append_left dir ?_)
  rwa [h.text_lossy mem]

/-! ## Paths of places -/

private theorem split_flatMap_slash {a : Text} {names : List Name} (first : '/' ∉ a)
    (noSlash : ∀ name ∈ names, '/' ∉ name.lossy) :
    Text.split '/' (a ++ names.flatMap fun name => '/' :: name.lossy)
      = a :: names.map Octets.lossy := by
  induction names generalizing a with
  | nil => simpa using Text.split_of_not_mem first
  | cons name names ih =>
    rw [List.flatMap_cons, List.cons_append, Text.split_append_cons, Text.split_of_not_mem first,
      ih (noSlash name List.mem_cons_self) fun n mem => noSlash n (List.mem_cons_of_mem _ mem)]
    rfl

variable (areTexts : AreTexts place) (found : fs.get? place = some x)

include areTexts found

private theorem isStep_of_mem_texts_self :
    ∀ t ∈ texts place, IsStep t ∧ Text.fits maxNameLength t = true := by
  rw [← List.append_nil place] at found
  exact isStep_of_mem_texts found areTexts

theorem steps_pathOf : Path.steps (pathOf place) = texts place := by
  have steps := isStep_of_mem_texts_self areTexts found
  have noSlash : ∀ name ∈ place.reverse, '/' ∉ name.lossy := fun name mem =>
    (steps _ (List.mem_map_of_mem mem)).1.word.2
  have kept : (texts place).filter (fun s => !Path.isIdle s) = texts place :=
    List.filter_eq_self.2 fun s mem => by simp [(steps s mem).1.notIdle]
  cases place with
  | nil => rfl
  | cons name place =>
    have segs := split_flatMap_slash (List.not_mem_nil (a := '/')) noSlash
    rw [List.nil_append] at segs
    rw [Path.steps, Path.segments, pathOf, segs]
    · exact kept
    · simp

omit areTexts found in
theorem isAbsolute_pathOf (place : Place) : Path.isAbsolute (pathOf place) = true := by
  cases place with
  | nil => rfl
  | cons name place =>
    cases reversed : (name :: place).reverse with
    | nil => simp at reversed
    | cons first more => simp [pathOf, reversed, Path.isAbsolute]

theorem refusal?_pathOf (short : Text.fits maxPathLength (pathOf place) = true) :
    refusal? (pathOf place) = none := by
  have nonempty : pathOf place ≠ [] := by
    intro none
    have absolute := isAbsolute_pathOf place
    simp [none, Path.isAbsolute] at absolute
  refine refusal?_eq_none_iff.2 ⟨fun nul => ?_, nonempty, short⟩
  have steps := isStep_of_mem_texts_self areTexts found
  cases place with
  | nil => simp [pathOf] at nul
  | cons name place =>
    obtain ⟨name', mem, inside⟩ := List.mem_flatMap.1 nul
    rcases List.mem_cons.1 inside with slash | inside
    · exact absurd slash (by decide)
    · exact (steps _ (List.mem_map_of_mem mem)).1.noNul inside

omit found in
/-- The path of a directory leads to it. -/
theorem leads_pathOf (there : fs.get? place = some (.directory mode)) :
    Leads fs (pathOf place) place := by
  have steps := steps_pathOf areTexts there
  have start : startOf fs.workDir (pathOf place) = [] := by rw [startOf, if_pos (isAbsolute_pathOf _)]
  have here : placeOf (startOf fs.workDir (pathOf place)) (Path.steps (pathOf place)) = place := by
    rw [start, steps, placeOf_texts areTexts, List.append_nil]
  have dir := isDirectoryAt_of_get? there
  rw [← here] at dir
  have leads := (paved_of_isDirectoryAt dir).leads fun s mem => by
    rw [steps] at mem
    obtain ⟨step, fits⟩ := isStep_of_mem_texts_self areTexts there s mem
    exact ⟨step.notIdle, step.notUp, fits⟩
  rwa [here] at leads

omit found in
theorem lookup_pathOf (there : fs.get? place = some (.directory mode))
    (short : Text.fits maxPathLength (pathOf place) = true) :
    lookup fs (pathOf place) = .ok (place, .directory mode) :=
  (leads_pathOf areTexts there).lookup_eq (refusal?_pathOf areTexts there short) there

omit areTexts found in
/-- The canonical path of a directory says every name as it is, so it leads to it again. -/
theorem lookup_canonical {path named : Path} (looked : lookup fs path = .ok (place, .directory mode))
    (ok : canonical fs path = .ok named) : lookup fs named = .ok (place, .directory mode) := by
  simp only [canonical, looked] at ok
  split at ok
  · rename_i short
    obtain rfl := Except.ok.inj ok
    exact lookup_pathOf (areTexts_of_lookup looked) (get?_of_lookup looked) short
  · simp at ok

omit areTexts found in
/-- A node that is no link is what its own entry leads to. -/
theorem target_eq (found : fs.get? (.text t :: base) = some x) (notLink : ∀ link, x ≠ .link link)
    (short : Text.fits maxPathLength (pathOf (.text t :: base)) = true) :
    target fs (.text t :: base) = .ok x := by
  obtain ⟨step, fits⟩ := isStep_of_mem found List.mem_cons_self
  have plain : IsPlainName t := ⟨step.notIdle, step.notUp, fits⟩
  have arrives : Arrives fs base [] base := arrives_nil (isDirectoryAt_of_get?_cons found)
  have located : resolve fs .node maxLinks base ([] ++ [t]) = .ok (.text t :: base) :=
    arrives.resolve_last rfl plain (fun link eq => notLink link (Option.some.inj (found.symm.trans eq)))
      .node
  rw [List.nil_append] at located
  simp only [target, short, Octets.lossy_text, located, found]
  rfl

end FileSystem

end Scaffold
