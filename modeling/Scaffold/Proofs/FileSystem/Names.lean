import Mathlib.Algebra.GroupWithZero.Nat
import Mathlib.Algebra.Order.BigOperators.Group.List
import Mathlib.Algebra.Order.Group.Nat
import Mathlib.Data.List.Induction
import Mathlib.Data.List.Infix
import Mathlib.Data.List.TakeWhile
import Scaffold.Proofs.FileSystem.Change

/-!
# Paths of names alone

A path without dots on which no link stands can be followed name by name. If every place
along it is free or a directory, making its directories does not fail: it makes those
that are missing, and it is known which mode they have.
-/

namespace Scaffold

namespace Text

private theorem utf8Length_split (t : Text) :
    ((split '/' t).map fun s => utf8Length s + 1).sum = utf8Length t + 1 := by
  induction t with
  | nil => rfl
  | cons c t ih =>
    rw [split]
    split
    · rename_i slash
      rw [List.map_cons, List.sum_cons, ih, utf8Length, utf8Length, slash,
        show '/'.utf8Size = 1 from rfl]
      omega
    · cases pieces : split '/' t with
      | nil => exact absurd pieces (split_ne_nil '/' t)
      | cons piece more =>
        rw [pieces] at ih
        simp only [List.map_cons, List.sum_cons, utf8Length] at ih ⊢
        omega

theorem exists_mem_split {c : Char} {t : Text} (mem : c ∈ t) (notSlash : c ≠ '/') :
    ∃ piece ∈ split '/' t, c ∈ piece := by
  induction t with
  | nil => simp at mem
  | cons d t ih =>
    rw [split]
    split
    · rename_i slash
      rcases List.mem_cons.1 mem with rfl | mem
      · exact absurd slash notSlash
      · obtain ⟨piece, found, inside⟩ := ih mem
        exact ⟨piece, List.mem_cons_of_mem _ found, inside⟩
    · cases pieces : split '/' t with
      | nil => exact absurd pieces (split_ne_nil '/' t)
      | cons piece more =>
        rcases List.mem_cons.1 mem with rfl | mem
        · exact ⟨_, List.mem_cons_self, List.mem_cons_self⟩
        · obtain ⟨found, among, inside⟩ := ih mem
          rw [pieces] at among
          rcases List.mem_cons.1 among with rfl | among
          · exact ⟨_, List.mem_cons_self, List.mem_cons_of_mem _ inside⟩
          · exact ⟨found, List.mem_cons_of_mem _ among, inside⟩

end Text

namespace FileSystem

variable {fs fs' : FileSystem} {goal : Goal} {start place q : Place} {path a : Path}
  {ss ns xs ys front more : List Text} {n : Text}

theorem refusal?_eq_none_iff :
    refusal? path = none ↔ '\x00' ∉ path ∧ path ≠ [] ∧ Text.fits maxPathLength path = true := by
  unfold refusal?
  split
  · rename_i nul
    simp [nul]
  · rename_i noNul
    split
    · rename_i empty
      simp [empty]
    · rename_i some
      simp [noNul, some]

/-- A path that is not empty and under which nothing is found may be asked for. -/
theorem refusal?_of_notFound (missing : locate fs goal path = .error .notFound) (some : path ≠ []) :
    refusal? path = none := by
  unfold locate at missing
  split at missing
  · rename_i refused
    obtain rfl := Except.error.inj missing
    simp only [refusal?, some, if_false] at refused
    split at refused
    · simp at refused
    · split at refused <;> simp at refused
  · assumption

/-- A path is not refused if a longer one is not. -/
theorem refusal?_of_le (allowed : refusal? path = none) (nul : '\x00' ∈ a → '\x00' ∈ path)
    (length : Text.utf8Length a ≤ Text.utf8Length path) (some : a ≠ []) : refusal? a = none := by
  obtain ⟨noNul, _, short⟩ := refusal?_eq_none_iff.1 allowed
  refine refusal?_eq_none_iff.2 ⟨fun mem => noNul (nul mem), some, ?_⟩
  simp only [Text.fits, decide_eq_true_eq] at short ⊢
  omega

/-- A path that is not refused may be thinned out. -/
theorem refusal?_of_sublist (allowed : refusal? path = none)
    (part : (Path.segments a).Sublist (Path.segments path)) (some : a ≠ []) :
    refusal? a = none := by
  have length := (part.map fun s => Text.utf8Length s + 1).sum_le_sum (by simp)
  rw [Path.segments, Path.segments, Text.utf8Length_split, Text.utf8Length_split] at length
  refine refusal?_of_le allowed (fun nul => ?_) (by omega) some
  obtain ⟨piece, mem, inside⟩ := Text.exists_mem_split nul (by decide)
  exact Text.mem_of_mem_split (part.subset mem) inside

/-! ## Names -/

/-- A segment that leads from a directory to a place in it. -/
structure IsPlainName (s : Text) : Prop where
  notIdle : Path.isIdle s = false
  notUp : s ≠ ['.', '.']
  fits : Text.fits maxNameLength s = true

instance (s : Text) : Decidable (IsPlainName s) :=
  decidable_of_iff (Path.isIdle s = false ∧ s ≠ ['.', '.'] ∧ Text.fits maxNameLength s = true)
    ⟨fun ⟨notIdle, notUp, fits⟩ => ⟨notIdle, notUp, fits⟩, fun h => ⟨h.notIdle, h.notUp, h.fits⟩⟩

theorem IsPlainName.ne_nil {s : Text} (h : IsPlainName s) : s ≠ [] := by
  rintro rfl
  simpa [Path.isIdle] using h.notIdle

/-- A path that is not refused and has nothing but names between its slashes. -/
structure Named (path : Path) : Prop where
  allowed : refusal? path = none
  names : ∀ s ∈ Path.segments path, s = [] ∨ IsPlainName s

instance (path : Path) : Decidable (Named path) :=
  decidable_of_iff (refusal? path = none ∧ ∀ s ∈ Path.segments path, s = [] ∨ IsPlainName s)
    ⟨fun ⟨allowed, names⟩ => ⟨allowed, names⟩, fun h => ⟨h.allowed, h.names⟩⟩

theorem Named.of_sublist (h : Named path)
    (part : (Path.segments a).Sublist (Path.segments path)) (some : a ≠ []) : Named a :=
  ⟨refusal?_of_sublist h.allowed part some, fun s mem => h.names s (part.subset mem)⟩

theorem Named.of_mem_ancestors (h : Named path) (mem : a ∈ ancestors path) : Named a :=
  h.of_sublist (Path.segments_sublist_of_mem_ancestors mem) (Path.ne_nil_of_mem_ancestors mem)

theorem Named.steps (h : Named path) : ∀ s ∈ Path.steps path, IsPlainName s := by
  intro s mem
  rcases h.names s (List.mem_filter.1 mem).1 with rfl | name
  · simpa [Path.isIdle] using Path.not_idle_of_mem_steps mem
  · exact name

/-- The place to which names lead from a directory, each in the one before. -/
def placeOf (dir : Place) (names : List Text) : Place := (names.map Octets.text).reverse ++ dir

@[simp] theorem placeOf_nil (dir : Place) : placeOf dir [] = dir := rfl

theorem placeOf_cons (dir : Place) (name : Text) (names : List Text) :
    placeOf dir (name :: names) = placeOf (.text name :: dir) names := by
  simp [placeOf]

theorem placeOf_append (dir : Place) (names more : List Text) :
    placeOf dir (names ++ more) = placeOf (placeOf dir names) more := by
  simp [placeOf]

theorem placeOf_concat (dir : Place) (names : List Text) (name : Text) :
    placeOf dir (names ++ [name]) = .text name :: placeOf dir names := by
  simp [placeOf]

theorem placeOf_inj {names more : List Text} (h : placeOf start names = placeOf start more) :
    names = more := by
  have reversed := List.reverse_inj.1 (List.append_cancel_right h)
  exact (List.map_inj_right fun _ _ eq => Octets.text.inj eq).1 reversed

/-- Where nothing stands, nothing stands behind. -/
theorem get?_placeOf_of_free {dir : Place} (names : List Text) (free : fs.get? dir = none) :
    fs.get? (placeOf dir names) = none := by
  induction names generalizing dir with
  | nil => exact free
  | cons name names ih =>
    rw [placeOf_cons]
    refine ih ?_
    cases found : fs.get? (.text name :: dir) with
    | none => rfl
    | some x => simpa [isDirectoryAt, free] using isDirectoryAt_of_get?_cons found

/-! ## Ways -/

/-- Along the names every place is free or a directory. -/
def Clear (fs : FileSystem) (start : Place) (ss : List Text) : Prop :=
  ∀ ns, ns <+: ss → fs.get? (placeOf start ns) = none ∨ fs.isDirectoryAt (placeOf start ns) = true

instance (fs : FileSystem) (start : Place) (ss : List Text) : Decidable (Clear fs start ss) :=
  decidable_of_iff (∀ ns ∈ ss.inits, fs.get? (placeOf start ns) = none
      ∨ fs.isDirectoryAt (placeOf start ns) = true)
    ⟨fun h ns part => h ns ((List.mem_inits ns ss).2 part),
      fun h ns mem => h ns ((List.mem_inits ns ss).1 mem)⟩

/-- Along the names every place is a directory. -/
def Paved (fs : FileSystem) (start : Place) (ss : List Text) : Prop :=
  ∀ ns, ns <+: ss → fs.isDirectoryAt (placeOf start ns) = true

theorem Clear.mono (h : Clear fs start ss) (front : ns <+: ss) : Clear fs start ns :=
  fun xs part => h xs (part.trans front)

theorem Paved.mono (h : Paved fs start ss) (front : ns <+: ss) : Paved fs start ns :=
  fun xs part => h xs (part.trans front)

theorem Paved.clear (h : Paved fs start ss) : Clear fs start ss := fun ns part => .inr (h ns part)

theorem paved_nil (there : fs.isDirectoryAt start = true) : Paved fs start [] := by
  intro ns part
  rw [List.prefix_nil.1 part]
  exact there

theorem Paved.concat (h : Paved fs start ss)
    (there : fs.isDirectoryAt (.text n :: placeOf start ss) = true) :
    Paved fs start (ss ++ [n]) := by
  intro ns part
  rcases List.prefix_concat_iff.1 part with rfl | part
  · rwa [placeOf_concat]
  · exact h ns part

/-- Directories that are added leave a clear way clear. -/
theorem Clear.grown (h : Clear fs start ss) (grown : Grown fs fs') : Clear fs' start ss := by
  intro ns part
  rcases h ns part with free | dir
  · cases found : fs'.get? (placeOf start ns) with
    | none => exact .inl rfl
    | some x => exact .inr (by simp [isDirectoryAt, found, grown.added _ x free found])
  · exact .inr (grown.kept.keepsDirectories _ dir)

/-- A clear way is paved, or paved up to a first place that is free. -/
theorem Clear.cases (h : Clear fs start ss) (there : fs.isDirectoryAt start = true) :
    Paved fs start ss ∨ ∃ xs n ys, ss = xs ++ n :: ys ∧ Paved fs start xs
      ∧ fs.get? (.text n :: placeOf start xs) = none := by
  induction ss using List.reverseRecOn with
  | nil => exact .inl (paved_nil there)
  | append_singleton ss n ih =>
    rcases ih (h.mono (List.prefix_append _ _)) with paved | ⟨xs, m, ys, rfl, paved, free⟩
    · rcases h _ List.prefix_rfl with free | dir
      · rw [placeOf_concat] at free
        exact .inr ⟨ss, n, [], rfl, paved, free⟩
      · rw [placeOf_concat] at dir
        exact .inl (paved.concat dir)
    · exact .inr ⟨xs, m, ys ++ [n], by simp, paved, free⟩

/-- The way to a directory is paved. -/
theorem paved_of_isDirectoryAt (there : fs.isDirectoryAt (placeOf start ss) = true) :
    Paved fs start ss := by
  induction ss using List.reverseRecOn with
  | nil => exact paved_nil there
  | append_singleton ss n ih =>
    rw [placeOf_concat] at there
    obtain ⟨mode, found⟩ := get?_of_isDirectoryAt there
    exact (ih (isDirectoryAt_of_get?_cons found)).concat there

/-! ## Resolving names -/

theorem Paved.walks (h : Paved fs start ss) (names : ∀ s ∈ ss, IsPlainName s) :
    Walks fs .node start ss (.arrived (placeOf start ss)) := by
  induction ss generalizing start with
  | nil => exact .done start
  | cons s ss ih =>
    have name := names s List.mem_cons_self
    have dir : fs.isDirectoryAt (.text s :: start) = true := h [s] (by simp)
    obtain ⟨mode, found⟩ := get?_of_isDirectoryAt dir
    rw [placeOf_cons]
    refine .on (h [] List.nil_prefix) ⟨name.notIdle, name.notUp, by simp, name.fits⟩ found (by simp)
      (ih (fun ns part => ?_) fun t mem => names t (List.mem_cons_of_mem _ mem))
    rw [← placeOf_cons]
    exact h (s :: ns) (List.cons_prefix_cons.2 ⟨rfl, part⟩)

/-- A path whose way is paved leads to the directory at its end. -/
theorem Paved.leads (h : Paved fs (startOf fs.workDir path) (Path.steps path))
    (names : ∀ s ∈ Path.steps path, IsPlainName s) :
    Leads fs path (placeOf (startOf fs.workDir path) (Path.steps path)) :=
  ⟨⟨[], .arrive (h.walks names)⟩, h _ List.prefix_rfl⟩

/-- The steps lead from one directory to another one. -/
structure Arrives (fs : FileSystem) (start : Place) (ss : List Text) (dir : Place) : Prop where
  resolves : ∃ followed, Resolves fs .node maxLinks start ss followed dir
  there : fs.isDirectoryAt dir = true

theorem arrives_nil (there : fs.isDirectoryAt start = true) : Arrives fs start [] start :=
  ⟨⟨[], .arrive (.done _)⟩, there⟩

theorem Paved.arrives (h : Paved fs start ss) (names : ∀ s ∈ ss, IsPlainName s) :
    Arrives fs start ss (placeOf start ss) :=
  ⟨⟨[], .arrive (h.walks names)⟩, h _ List.prefix_rfl⟩

theorem Leads.arrives (h : Leads fs path dir) :
    Arrives fs (startOf fs.workDir path) (Path.steps path) dir :=
  ⟨h.resolves, h.there⟩

theorem Arrives.exists_front (h : Arrives fs start (xs ++ ys) dir) : ∃ dir', Arrives fs start xs dir' := by
  obtain ⟨_, resolves⟩ := h.resolves
  obtain ⟨followed, dir', front, there, _⟩ := resolves.front rfl fun _ => h.there
  exact ⟨dir', ⟨followed, front⟩, there⟩

/-- Directories that stay keep the way to one of them. -/
theorem Arrives.preserved (h : Arrives fs start ss dir) (kept : Preserved fs fs') :
    Arrives fs' start ss dir := by
  obtain ⟨followed, resolves⟩ := h.resolves
  have there := kept.dirs dir h.there
  exact ⟨⟨followed, resolves.frame kept.dirs (kept.followed resolves) (.directory there)⟩, there⟩

/-- Behind the steps a resolution goes on from the directory. -/
theorem Arrives.resolve_append (h : Arrives fs start xs dir)
    (filtered : front.filter (fun s => !Path.isIdle s) = xs) :
    ∃ left, ∀ goal b, (∃ s ∈ b, s ≠ []) →
      resolve fs goal maxLinks start (front ++ b) = resolve fs goal left dir b := by
  obtain ⟨_, resolves⟩ := h.resolves
  have same : SameSteps xs front := by
    subst filtered
    simp [SameSteps]
  exact (resolves.sameSteps h.there same).append h.there

/-- A paved way can be added to the steps. -/
theorem Arrives.append (h : Arrives fs start xs dir) (paved : Paved fs dir ss)
    (names : ∀ s ∈ ss, IsPlainName s) : Arrives fs start (xs ++ ss) (placeOf dir ss) := by
  cases ss with
  | nil => simpa using h
  | cons s ss =>
    obtain ⟨_, resolves⟩ := h.resolves
    obtain ⟨left, behind⟩ := resolves.append h.there
    have arrived : Resolves fs .node left dir (s :: ss) [] (placeOf dir (s :: ss)) :=
      .arrive (paved.walks names)
    have whole := behind .node (s :: ss) ⟨s, List.mem_cons_self, (names s List.mem_cons_self).ne_nil⟩
    rw [arrived.resolve_eq] at whole
    exact ⟨exists_resolves whole, paved _ List.prefix_rfl⟩

/-- A last name leads to its place, unless a link stands there. -/
theorem Arrives.resolve_last (h : Arrives fs start xs dir)
    (filtered : front.filter (fun s => !Path.isIdle s) = xs) (name : IsPlainName n)
    (notLink : ∀ target, fs.get? (.text n :: dir) ≠ some (.link target)) (goal : Goal) :
    resolve fs goal maxLinks start (front ++ [n]) = .ok (.text n :: dir) := by
  obtain ⟨left, behind⟩ := h.resolve_append filtered
  have isName : IsName goal n [] :=
    ⟨name.notIdle, name.notUp, fun _ => by simp [isSlashed], name.fits⟩
  rw [behind goal [n] ⟨n, List.mem_cons_self, name.ne_nil⟩]
  cases found : fs.get? (.text n :: dir) with
  | none => exact (Resolves.arrive (.vacant h.there isName found rfl)).resolve_eq
  | some x =>
    refine (Resolves.arrive (.on h.there isName found (fun target eq => ?_) (.done _))).resolve_eq
    exact notLink target (eq ▸ found)

/-- Where a name is missing, the way only goes on to slashes. -/
theorem Arrives.resolve_free (h : Arrives fs start xs dir)
    (filtered : front.filter (fun s => !Path.isIdle s) = xs) (name : IsPlainName n)
    (free : fs.get? (.text n :: dir) = none) (slashed : goal = .file → isSlashed more = false) :
    resolve fs goal maxLinks start (front ++ n :: more)
      = if more.all (· = []) then .ok (.text n :: dir) else .error .notFound := by
  obtain ⟨left, behind⟩ := h.resolve_append filtered
  have isName : IsName goal n more := ⟨name.notIdle, name.notUp, slashed, name.fits⟩
  have walked := walk_name h.there isName
  rw [free] at walked
  rw [behind goal (n :: more) ⟨n, List.mem_cons_self, name.ne_nil⟩, resolve, walked]
  by_cases last : more.all (· = []) = true <;> simp only [last] <;> rfl

/-- The segments of a path of names, taken apart at one of its steps. -/
theorem Named.exists_segments (h : Named path) (parts : Path.steps path = xs ++ n :: ys) :
    ∃ front more, Path.segments path = front ++ n :: more
      ∧ front.filter (fun s => !Path.isIdle s) = xs ∧ (more.all (· = []) = true ↔ ys = []) := by
  obtain ⟨front, back, segs, filtered, behind⟩ := List.filter_eq_append_iff.1 parts
  obtain ⟨idles, more, rfl, idle, _, rest⟩ := List.filter_eq_cons_iff.1 behind
  refine ⟨front ++ idles, more, by simp [segs], ?_, ?_⟩
  · rw [List.filter_append, filtered, List.filter_eq_nil_iff.2 (by simpa using idle),
      List.append_nil]
  · rw [← rest, List.filter_eq_nil_iff, List.all_eq_true]
    refine forall₂_congr fun s mem => ?_
    rcases h.names s (by simp [segs, mem]) with rfl | name
    · simp [Path.isIdle]
    · simp [name.ne_nil, name.notIdle]

/-- A clear way leads to a directory or to nothing. -/
theorem Clear.lookup_cases (h : Clear fs (startOf fs.workDir path) (Path.steps path))
    (named : Named path) (there : fs.isDirectoryAt (startOf fs.workDir path) = true) :
    (∃ mode, lookup fs path
        = .ok (placeOf (startOf fs.workDir path) (Path.steps path), .directory mode))
      ∨ lookup fs path = .error .notFound := by
  rcases h.cases there with paved | ⟨xs, n, ys, parts, paved, free⟩
  · have leads := paved.leads named.steps
    obtain ⟨mode, found⟩ := get?_of_isDirectoryAt leads.there
    exact .inl ⟨mode, leads.lookup_eq named.allowed found⟩
  · obtain ⟨front, more, segs, filtered, _⟩ := named.exists_segments parts
    have names := named.steps
    rw [parts] at names
    have arrives := paved.arrives fun s mem => names s (List.mem_append_left _ mem)
    have located : resolve fs .node maxLinks _ (front ++ n :: more) = _ :=
      arrives.resolve_free filtered (names n (by simp)) free (by simp)
    right
    simp only [lookup, locate, named.allowed, segs, located]
    by_cases last : more.all (· = []) = true
    · simp only [last, if_true, free]
    · simp only [last, Bool.false_eq_true, if_false]

/-- Without the slashes at its end a path can be taken apart at one of its steps. -/
theorem exists_segmentsWithoutEnd (parts : Path.steps path = xs ++ n :: ys) :
    ∃ front more, segmentsWithoutEnd path = front ++ n :: more
      ∧ front.filter (fun s => !Path.isIdle s) = xs ∧ (more.all (· = []) = true → ys = []) := by
  have steps : (segmentsWithoutEnd path).filter (fun s => !Path.isIdle s) = xs ++ n :: ys := by
    rw [sameSteps_segmentsWithoutEnd path, ← parts]
    simp [Path.steps]
  obtain ⟨front, back, segs, filtered, behind⟩ := List.filter_eq_append_iff.1 steps
  obtain ⟨idles, more, rfl, idle, _, rest⟩ := List.filter_eq_cons_iff.1 behind
  refine ⟨front ++ idles, more, by simp [segs], ?_, fun slashes => ?_⟩
  · rw [List.filter_append, filtered, List.filter_eq_nil_iff.2 (by simpa using idle),
      List.append_nil]
  · rw [← rest, List.filter_eq_nil_iff]
    intro s mem
    have empty : s = [] := by simpa using List.all_eq_true.1 slashes s mem
    simp [empty, Path.isIdle]

/-- A path that ends in a step can be taken apart in front of it. -/
theorem exists_front (h : Path.EndsInStep path) (parts : Path.steps path = xs ++ [n]) :
    ∃ front, segmentsWithoutEnd path = front ++ [n]
      ∧ front.filter (fun s => !Path.isIdle s) = xs := by
  rcases h with none | ⟨front, last, segs, step⟩
  · simp [none] at parts
  have steps : (segmentsWithoutEnd path).filter (fun s => !Path.isIdle s) = xs ++ [n] := by
    rw [sameSteps_segmentsWithoutEnd path, ← parts]
    simp [Path.steps]
  have kept : [last].filter (fun s => !Path.isIdle s) = [last] := by simp [step]
  rw [segs, List.filter_append, kept] at steps
  obtain ⟨filtered, same⟩ := List.append_inj' steps rfl
  exact ⟨front, by rw [segs, same], filtered⟩

theorem Named.endsInStep (h : Named path) : Path.EndsInStep path := by
  rcases List.eq_nil_or_concat' (segmentsWithoutEnd path) with none | ⟨front, last, segs⟩
  · left
    have same := sameSteps_segmentsWithoutEnd path
    rw [none] at same
    simpa [SameSteps, Path.steps] using same.symm
  · right
    refine ⟨front, last, segs, ?_⟩
    have some : last ≠ [] := by
      have stop := List.head?_dropWhile_not (· = []) (Path.segments path).reverse
      rw [segmentsWithoutEnd, List.reverse_eq_iff] at segs
      rw [segs] at stop
      simpa using stop
    obtain ⟨blanks, whole⟩ := segments_eq_withoutEnd path
    rcases h.names last (by simp [whole, segs]) with empty | name
    · exact absurd empty some
    · exact name.notIdle

/-! ## Modes -/

/-- The mode of a directory that is made at a place together with those missing above it. -/
def plainMode (fs : FileSystem) : Place → Mode
  | [] => .newDirectory
  | _ :: parent =>
    match fs.get? parent with
    | some (.directory mode) => .newDirectory ||| (mode &&& .setGroupId)
    | _ => plainMode fs parent

theorem newDirectory_or_setGroupId (mode : Mode) :
    Mode.newDirectory ||| ((Mode.newDirectory ||| (mode &&& .setGroupId)) &&& .setGroupId)
      = .newDirectory ||| (mode &&& .setGroupId) := by
  ext i
  simp only [BitVec.getElem_or, BitVec.getElem_and]
  cases Mode.newDirectory[i] <;> cases Mode.setGroupId[i] <;> simp

/-- A directory made below one that was made before has the same mode. -/
theorem plainMode_again (fs : FileSystem) (place : Place) :
    Mode.newDirectory ||| (plainMode fs place &&& .setGroupId) = plainMode fs place := by
  induction place with
  | nil =>
    rw [plainMode]
    decide
  | cons name parent ih =>
    unfold plainMode
    split
    · exact newDirectory_or_setGroupId _
    · exact ih

theorem plainMode_of_directory {name : Name} {mode : Mode}
    (found : fs.get? place = some (.directory mode)) :
    plainMode fs (name :: place) = .newDirectory ||| (mode &&& .setGroupId) := by
  rw [plainMode, found]

theorem plainMode_of_free {name : Name} (free : fs.get? place = none) :
    plainMode fs (name :: place) = plainMode fs place := by
  rw [plainMode, free]

/-- Directories that have the mode they are made with do not change the mode of others. -/
theorem plainMode_congr
    (kept : ∀ q mode, fs.get? q = some (.directory mode) → fs'.get? q = some (.directory mode))
    (new : ∀ q mode, fs'.get? q = some (.directory mode) →
      fs.get? q = some (.directory mode) ∨ mode = plainMode fs q) (place : Place) :
    plainMode fs' place = plainMode fs place := by
  induction place with
  | nil => rfl
  | cons name parent ih =>
    have below {fs : FileSystem} (noDir : ∀ mode, fs.get? parent ≠ some (.directory mode)) :
        plainMode fs (name :: parent) = plainMode fs parent := by
      rw [plainMode]
      split
      · rename_i mode found
        exact absurd found (noDir mode)
      · rfl
    by_cases after : ∃ mode, fs'.get? parent = some (.directory mode)
    · obtain ⟨mode, found⟩ := after
      rw [plainMode_of_directory found]
      by_cases before : ∃ mode, fs.get? parent = some (.directory mode)
      · obtain ⟨old, there⟩ := before
        obtain rfl := Node.directory.inj (Option.some.inj ((kept _ _ there).symm.trans found))
        rw [plainMode_of_directory there]
      · rcases new parent mode found with there | rfl
        · exact absurd ⟨mode, there⟩ before
        · rw [plainMode_again, below fun mode there => before ⟨mode, there⟩]
    · rw [below fun mode there => after ⟨mode, there⟩,
        below fun mode there => after ⟨mode, kept _ _ there⟩, ih]

/-! ## Making the directories of a path -/

/-- `fs'` is `fs` with the directories that were missing along the names. -/
structure Made (fs : FileSystem) (start : Place) (ss : List Text) (fs' : FileSystem) : Prop where
  new : ∀ ns, ns <+: ss → fs.get? (placeOf start ns) = none →
    fs'.get? (placeOf start ns) = some (.directory (plainMode fs (placeOf start ns)))
  kept : ∀ q, (fs.get? q = none → ∀ ns, ns <+: ss → q ≠ placeOf start ns) →
    fs'.get? q = fs.get? q
  workDir : fs'.workDir = fs.workDir

theorem Paved.made (h : Paved fs start ss) : Made fs start ss fs := by
  refine ⟨fun ns part free => ?_, fun _ _ => rfl, rfl⟩
  have dir := h ns part
  simp [isDirectoryAt, free] at dir

theorem Made.paved (h : Made fs start ss fs') (clear : Clear fs start ss) :
    Paved fs' start ss := by
  intro ns part
  rcases clear ns part with free | dir
  · exact isDirectoryAt_of_get? (h.new ns part free)
  · obtain ⟨mode, found⟩ := get?_of_isDirectoryAt dir
    have same : fs'.get? (placeOf start ns) = some (.directory mode) := by
      rw [h.kept _ fun free => by simp [found] at free, found]
    exact isDirectoryAt_of_get? same

theorem Made.plainMode_eq {ss : List Text} (h : Made fs start ss fs') (q : Place) :
    plainMode fs' q = plainMode fs q := by
  refine plainMode_congr (fun q mode found => ?_) (fun q mode found => ?_) q
  · rw [h.kept q fun free => by simp [found] at free, found]
  · by_cases new : fs.get? q = none ∧ ∃ ns, ns <+: ss ∧ q = placeOf start ns
    · obtain ⟨free, ns, part, rfl⟩ := new
      rw [h.new ns part free] at found
      exact .inr (Node.directory.inj (Option.some.inj found)).symm
    · rw [h.kept q fun free ns part eq => new ⟨free, ns, part, eq⟩] at found
      exact .inl found

theorem placeOf_ne_of_isPrefix (part : ns <+: ss) :
    placeOf start ns ≠ .text n :: placeOf start ss := by
  intro eq
  rw [← placeOf_concat] at eq
  have length := part.length_le
  rw [placeOf_inj eq, List.length_append, List.length_singleton] at length
  omega

/-- One more directory behind those that were made. -/
theorem Made.concat {fs₁ : FileSystem} (h : Made fs start ss fs₁) (clear : Clear fs start ss)
    (free : fs.get? (.text n :: placeOf start ss) = none)
    (put : IsPut fs₁ (.text n :: placeOf start ss)
      (.directory (inheritedMode fs₁ (.text n :: placeOf start ss))) fs') :
    Made fs start (ss ++ [n]) fs' := by
  have mode : inheritedMode fs₁ (.text n :: placeOf start ss)
      = plainMode fs (.text n :: placeOf start ss) := by
    rcases clear ss List.prefix_rfl with missing | dir
    · simp only [inheritedMode, h.new ss List.prefix_rfl missing]
      rw [plainMode_again, plainMode_of_free missing]
    · obtain ⟨mode, found⟩ := get?_of_isDirectoryAt dir
      have same : fs₁.get? (placeOf start ss) = some (.directory mode) := by
        rw [h.kept _ fun missing => by simp [found] at missing, found]
      simp only [inheritedMode, same]
      rw [plainMode_of_directory found]
  refine ⟨fun ns part missing => ?_, fun q away => ?_, put.workDir.trans h.workDir⟩
  · rcases List.prefix_concat_iff.1 part with rfl | part
    · rw [placeOf_concat, put.self, mode]
    · rw [put.other (placeOf_ne_of_isPrefix part), h.new ns part missing]
  · have other : q ≠ .text n :: placeOf start ss := by
      rintro rfl
      exact away free (ss ++ [n]) List.prefix_rfl (placeOf_concat ..).symm
    rw [put.other other]
    exact h.kept q fun missing ns part => away missing ns (part.trans (List.prefix_append _ _))

end FileSystem

namespace FileAction

open FileSystem

variable {fs : FileSystem} {start : Place} {path : Path} {ss xs ys : List Text} {n : Text}

theorem createDirectory_of_free (allowed : refusal? path = none) (ends : Path.EndsInStep path)
    (parts : Path.steps path = xs ++ [n]) (arrives : Arrives fs (startOf fs.workDir path) xs dir)
    (name : IsPlainName n) (free : fs.get? (.text n :: dir) = none) :
    ∃ fs', createDirectory path fs = .ok () fs'
      ∧ IsPut fs (.text n :: dir) (.directory (inheritedMode fs (.text n :: dir))) fs' := by
  obtain ⟨front, segs, filtered⟩ := exists_front ends parts
  have located : locateEntry fs path = .ok (.text n :: dir) := by
    simp only [locateEntry, allowed, segs]
    exact arrives.resolve_last filtered name (by simp [free]) .entry
  refine ⟨_, ?_, (isVacant_of_locateEntry located free).isPut (by simp)⟩
  simp only [createDirectory, located, free]

theorem createDirectory_of_missing (allowed : refusal? path = none)
    (parts : Path.steps path = xs ++ n :: ys) (some : ys ≠ [])
    (arrives : Arrives fs (startOf fs.workDir path) xs dir) (name : IsPlainName n)
    (free : fs.get? (.text n :: dir) = none) :
    createDirectory path fs = .error .notFound fs := by
  obtain ⟨front, more, segs, filtered, last⟩ := exists_segmentsWithoutEnd parts
  have located : locateEntry fs path = .error .notFound := by
    simp only [locateEntry, allowed, segs]
    rw [arrives.resolve_free filtered name free (by simp), if_neg (mt last some)]
  simp only [createDirectory, located]

theorem ensureDirectory_of_leads (allowed : refusal? path = none) (leads : Leads fs path dir) :
    ensureDirectory path fs = .ok () fs := by
  unfold ensureDirectory
  cases made : createDirectory path fs with
  | ok _ fs₁ =>
    obtain ⟨place, located, vacant, _⟩ := createDirectory_ok made
    exact absurd vacant (leads.not_isVacant located)
  | error why fs₁ =>
    obtain rfl := createDirectory_error made
    simp only [leads.isDirectory_eq allowed, if_true]

/-- Directories that are all there need not be made. -/
private theorem createAll_of_leads {paths : List Path}
    (there : ∀ a ∈ paths, refusal? a = none ∧ ∃ dir, Leads fs a dir) :
    createAll paths fs = .ok () fs := by
  induction paths with
  | nil => rfl
  | cons a above ih =>
    obtain ⟨allowed, dir, leads⟩ := there a List.mem_cons_self
    have ensured := ensureDirectory_of_leads allowed leads
    rcases createAll_cons a above fs with once | later
    · rw [once, ensured]
    · rw [later, bind_of_ok (ih fun b mem => there b (List.mem_cons_of_mem _ mem)), ensured]

/-- Nothing is made where a path leads to a directory. -/
theorem createDirectories_of_leads (leads : Leads fs path dir) (allowed : refusal? path = none) :
    createDirectories path fs = .ok () fs := by
  refine createAll_of_leads fun a mem => ⟨?_, ?_⟩
  · exact refusal?_of_sublist allowed (Path.segments_sublist_of_mem_ancestors mem)
      (Path.ne_nil_of_mem_ancestors mem)
  · obtain ⟨kind, more, parts⟩ := (Path.chain_ancestors path).mem mem
    exact leads.front kind parts.symm

/-- Directories that were made need not be made again. -/
theorem createDirectories_again {fs₁ fs₂ : FileSystem}
    (made : createDirectories path fs = .ok () fs₁) (kept : Preserved fs₁ fs₂) :
    createDirectories path fs₂ = .ok () fs₂ := by
  by_cases none : ancestors path = []
  · rw [createDirectories, none]
    rfl
  · obtain ⟨allowed, dir, leads⟩ := leads_of_createDirectories made none
    exact createDirectories_of_leads (leads.preserved kept) allowed

/-- Steps that arrive at a directory pass directories only, so none of the paths on the way
need be made. -/
private theorem createAll_of_arrives {absolute : Bool} {paths : List Path} {segs : List Text}
    (chain : Path.Chain absolute paths segs) (allowed : ∀ a ∈ paths, refusal? a = none)
    (starts : ∀ a ∈ paths, startOf fs.workDir a = start) (arrives : Arrives fs start segs dir) :
    createAll paths fs = .ok () fs := by
  refine createAll_of_leads fun a mem => ⟨allowed a mem, ?_⟩
  obtain ⟨_, more, parts⟩ := chain.mem mem
  rw [← parts] at arrives
  obtain ⟨up, there⟩ := arrives.exists_front
  rw [← starts a mem] at there
  exact ⟨up, there.resolves, there.there⟩

/-- Where nothing bears a name, nothing lies at any depth behind it. -/
private theorem get?_concat_of_free {xs : List Text} (zs : List Text) (m : Text)
    (free : fs.get? (.text n :: placeOf dir xs) = none) :
    fs.get? (.text m :: placeOf dir (xs ++ n :: zs)) = none := by
  have deep := get?_placeOf_of_free (zs ++ [m]) free
  rw [← placeOf_concat, ← placeOf_append, List.append_assoc, List.singleton_append] at deep
  rw [← placeOf_concat, List.append_assoc, List.cons_append]
  exact deep

/-- When the directories in front of the last one have been made, the last one is made. -/
private theorem exists_made_last {above : List Path} {fs₁ : FileSystem} {m : Text}
    (allowed : refusal? path = none) (ends : Path.EndsInStep path)
    (steps : Path.steps path = bs ++ (front ++ [m]))
    (missing : createDirectory path fs = .error .notFound fs)
    (others : createAll above fs = .ok () fs₁) (made : Made fs dir front fs₁)
    (arrives : Arrives fs (startOf fs.workDir path) bs dir)
    (names : ∀ s ∈ front ++ [m], IsPlainName s) (clear : Clear fs dir front)
    (free : fs.get? (.text m :: placeOf dir front) = none) :
    ∃ fs', createAll (path :: above) fs = .ok () fs' ∧ Made fs dir (front ++ [m]) fs' := by
  have grown : Grown fs fs₁ := after_ok others ▸ (grown_createAll above fs).1
  have free₁ : fs₁.get? (.text m :: placeOf dir front) = none := by
    rw [made.kept _ fun _ ns part => (placeOf_ne_of_isPrefix part).symm, free]
  have there := (arrives.preserved grown.preserved).append (made.paved clear)
    fun s mem => names s (List.mem_append_left _ mem)
  rw [← grown.workDir] at there
  rw [← List.append_assoc] at steps
  obtain ⟨fs', second, put⟩ :=
    createDirectory_of_free allowed ends steps there (names m (by simp)) free₁
  refine ⟨fs', ?_, made.concat clear free put⟩
  rw [createAll_missing missing, bind_of_ok others]
  simp only [ensureDirectory, second]

/-- Behind steps to a directory, along a clear way, the directories that are missing are
made, and nothing is refused. -/
private theorem createAll_of_clear {absolute : Bool} {paths : List Path}
    (chain : Path.Chain absolute paths (bs ++ ss))
    (fit : ∀ a ∈ paths, refusal? a = none ∧ Path.EndsInStep a)
    (starts : ∀ a ∈ paths, startOf fs.workDir a = start) (arrives : Arrives fs start bs dir)
    (names : ∀ s ∈ ss, IsPlainName s) (clear : Clear fs dir ss) :
    ∃ fs', createAll paths fs = .ok () fs' ∧ Made fs dir ss fs' := by
  generalize parts : bs ++ ss = whole at chain
  induction chain generalizing ss with
  | start =>
    obtain ⟨rfl, rfl⟩ := List.append_eq_nil_iff.1 parts
    exact ⟨fs, rfl, (paved_nil arrives.there).made⟩
  | @step path above whole kind steps more ih =>
    subst parts
    obtain ⟨allowed, ends⟩ := fit path List.mem_cons_self
    have first := starts path List.mem_cons_self
    rcases clear.cases arrives.there with paved | ⟨xs, n, ys, rfl, paved, free⟩
    · have all := createAll_of_arrives (Path.Chain.step kind steps more) (fun a mem => (fit a mem).1)
        starts (arrives.append paved names)
      exact ⟨fs, all, paved.made⟩
    · have through := arrives.append paved fun s mem => names s (List.mem_append_left _ mem)
      rw [← first] at through
      rcases List.eq_nil_or_concat' ys with rfl | ⟨zs, m, rfl⟩
      · rw [← List.append_assoc] at steps
        obtain ⟨fs', made, put⟩ :=
          createDirectory_of_free allowed ends steps through (names n (by simp)) free
        exact ⟨fs', createAll_made made, paved.made.concat paved.clear free put⟩
      · have cut : xs ++ n :: (zs ++ [m]) = (xs ++ n :: zs) ++ [m] := by simp
        have missing : createDirectory path fs = .error .notFound fs := by
          rw [← List.append_assoc] at steps
          exact createDirectory_of_missing allowed steps (by simp) through (names n (by simp)) free
        have front : bs ++ (xs ++ n :: zs) = (bs ++ (xs ++ n :: (zs ++ [m]))).dropLast := by
          rw [cut, ← List.append_assoc bs (xs ++ n :: zs), List.dropLast_concat]
        rw [cut] at clear names steps ⊢
        have before : Clear fs dir (xs ++ n :: zs) := clear.mono (List.prefix_append _ _)
        obtain ⟨fs₁, others, made⟩ := ih (fun a mem => fit a (List.mem_cons_of_mem _ mem))
          (fun a mem => starts a (List.mem_cons_of_mem _ mem))
          (fun s mem => names s (List.mem_append_left _ mem)) before front
        rw [← first] at arrives
        exact exists_made_last allowed ends steps missing others made arrives names before
          (get?_concat_of_free zs m free)

theorem createDirectories_of_clear (named : ∀ a ∈ ancestors path, Named a)
    (there : fs.isDirectoryAt (startOf fs.workDir path) = true)
    (clear : Clear fs (startOf fs.workDir path) (Path.steps path)) :
    ∃ fs', createDirectories path fs = .ok () fs'
      ∧ Made fs (startOf fs.workDir path) (Path.steps path) fs' := by
  have chain := Path.chain_ancestors path
  refine createAll_of_clear chain (fun a mem => ⟨(named a mem).allowed, (named a mem).endsInStep⟩)
    (fun a mem => ?_) (arrives_nil there) ?_ clear
  · rw [startOf, (chain.mem mem).1, ← startOf]
  · intro s mem
    have some := ancestors_ne_nil_of_steps (List.ne_nil_of_mem mem)
    obtain ⟨above, self⟩ := ancestors_eq_cons some
    exact (named path (by simp [self])).steps s mem

/-- Behind a path to a directory the directories of names are made. -/
theorem createDirectories_behind {p : Path} (leads : Leads fs p dir)
    (kind : Path.isAbsolute path = Path.isAbsolute p) (steps : Path.steps path = Path.steps p ++ ss)
    (fit : ∀ a ∈ ancestors path, refusal? a = none ∧ Path.EndsInStep a)
    (names : ∀ s ∈ ss, IsPlainName s) (clear : Clear fs dir ss) :
    ∃ fs', createDirectories path fs = .ok () fs' ∧ Made fs dir ss fs' := by
  have chain := Path.chain_ancestors path
  rw [steps] at chain
  refine createAll_of_clear chain fit (fun a mem => ?_) leads.arrives names clear
  rw [startOf, (chain.mem mem).1, kind, ← startOf]

/-- Along a chain of names that are not too long nothing is made unless all can be made: once
the first directory is made, nothing stands in the way of the others. -/
theorem createAll_error_of_names {absolute : Bool} {paths : List Path} {segs : List Text}
    {why : IoError} (chain : Path.Chain absolute paths segs) (names : ∀ s ∈ segs, IsPlainName s)
    (fit : ∀ a ∈ paths, refusal? a = none ∧ Path.EndsInStep a)
    (h : createAll paths fs = .error why fs') : fs' = fs := by
  induction chain generalizing fs' why with
  | start => simp [createAll] at h
  | @step path above segs kind steps more ih =>
    obtain ⟨allowed, ends⟩ := fit path List.mem_cons_self
    have front : ∀ s ∈ segs.dropLast, IsPlainName s := fun s mem =>
      names s ((List.dropLast_sublist segs).subset mem)
    rcases createAll_cons_error h with refused | ⟨rfl | made, second, noDir⟩
    · exact ih front (fun a mem => fit a (List.mem_cons_of_mem _ mem)) refused
    · rfl
    have noUp : ['.', '.'] ∉ segs.dropLast := fun mem => (front _ mem).notUp rfl
    rcases createAll_fresh more noUp made with same | ⟨parent, dir, kind', steps', up, _, empty⟩
    · exact same
    -- The parent is new and empty, so the path either is the parent or can be made.
    exfalso
    rcases List.eq_nil_or_concat' segs with rfl | ⟨before, n, rfl⟩
    · have here := up.congr (kind.trans kind'.symm) (steps.trans steps'.symm)
      simp [here.isDirectory_eq allowed] at noDir
    · rw [List.dropLast_concat] at steps'
      have arrives := up.arrives
      rw [steps', startOf, kind', ← kind, ← startOf] at arrives
      obtain ⟨_, again, _⟩ := createDirectory_of_free allowed ends steps arrives
        (names n (by simp)) (get?_below_of_childNames empty (below_cons _ _))
      simp [again] at second

end FileAction

end Scaffold
