import Scaffold.Proofs.Capture.Captured
import Scaffold.Proofs.Capture.Order

/-!
# Outlines

The outline of a template has a line for each entry, in the order of the paths. Paths are
compared name by name, so whatever lies between a directory and something in it is in the
directory too, whichever characters the names hold. So what a directory holds stands right
behind its line and deeper than it, and a reader who goes through the lines from the top and
keeps in mind which directories are open finds the path of every entry.
-/

namespace Scaffold

open FileSystem

/-! ## Lines that are read -/

/-- A line of an outline: how deep it is indented, the name, and whether a slash stands behind
it. -/
structure OutlineLine where
  depth : Nat
  name : Text
  isDirectory : Bool
  deriving DecidableEq

namespace OutlineLine

/-- The line of an entry. -/
def ofEntry (e : Entry) : OutlineLine := ⟨e.depth, e.name, e.isDirectory⟩

/-- The line as it is written. -/
def text (l : OutlineLine) : Text :=
  Text.times l.depth Template.indentation ++ l.name ++ if l.isDirectory then ['/'] else []

/-- Take a written line apart. -/
def ofText : Text → OutlineLine
  | ' ' :: ' ' :: ' ' :: ' ' :: rest => { ofText rest with depth := (ofText rest).depth + 1 }
  | t => if Text.endsIn '/' t then ⟨0, t.dropLast, true⟩ else ⟨0, t, false⟩

/-- Read lines from the top and give the path of each. What is open are the directories that the
next line may stand in, the outermost first; a line closes those that are as deep as itself. No
line may be deeper than what is open. -/
def read (opened : List Text) : List OutlineLine → Option (List Path)
  | [] => some []
  | l :: more =>
    if opened.length < l.depth then none
    else
      let above := opened.take l.depth
      (read (if l.isDirectory then above ++ [l.name] else above) more).map
        (Text.joinWith '/' (above ++ [l.name]) :: ·)

theorem ofText_of_not_prefix {t : Text} (h : ¬ Template.indentation <+: t) :
    ofText t = if Text.endsIn '/' t then ⟨0, t.dropLast, true⟩ else ⟨0, t, false⟩ := by
  unfold ofText
  split
  · rename_i rest
    exact absurd ⟨rest, rfl⟩ h
  · rfl

/-- A written line is taken apart again, unless the name looks like an indentation. -/
theorem ofText_text {l : OutlineLine} (word : Path.IsWord l.name)
    (plain : ¬ Template.indentation <+: l.name) : ofText l.text = l := by
  obtain ⟨depth, name, isDirectory⟩ := l
  induction depth with
  | zero =>
    have unindented : ¬ Template.indentation <+: name ++ if isDirectory then ['/'] else [] := by
      cases isDirectory with
      | false => simpa using plain
      | true =>
        intro part
        rcases List.prefix_concat_iff.1 part with whole | part
        · exact absurd (congrArg List.getLast? whole) (by simp [Template.indentation])
        · exact plain part
    have written : text ⟨0, name, isDirectory⟩ = name ++ if isDirectory then ['/'] else [] := rfl
    rw [written, ofText_of_not_prefix unindented]
    cases isDirectory with
    | false =>
      have last : Text.endsIn '/' name = false := by simpa [Text.endsIn] using word.getLast?_ne
      simp [last]
    | true => simp [Text.endsIn]
  | succ depth ih =>
    have written : text ⟨depth + 1, name, isDirectory⟩
        = ' ' :: ' ' :: ' ' :: ' ' :: text ⟨depth, name, isDirectory⟩ := by
      simp [text, Text.times, List.replicate_succ, Template.indentation]
    rw [written, ofText, ih word plain]

end OutlineLine

/-! ## The order of paths -/

namespace Path

/-- Names are compared by their bytes. -/
theorem componentsLe_names (ts us : List Text) :
    componentsLe (ts.map .name) (us.map .name)
      = decide (ts.map Utf8.encode ≤ us.map Utf8.encode) := by
  induction ts generalizing us with
  | nil => simp [componentsLe]
  | cons t ts ih =>
    cases us with
    | nil => simp [componentsLe]
    | cons u us =>
      simp only [List.map_cons, componentsLe, Component.name.injEq, List.cons_le_cons_iff]
      by_cases same : t = u
      · subst same
        simp [ih, List.lt_irrefl]
      · have differ : Utf8.encode t ≠ Utf8.encode u := by
          intro eq
          have octets := Octets.bytes_inj (a := .text t) (b := .text u) eq
          exact same (Octets.text.inj octets)
        simp [same, differ, componentLe, Component.rank, Component.bytes, List.le_iff_lt_or_eq]

end Path

namespace FileSystem

variable {names more between above : List Name} {name : Name}

theorem listingKey_append (more names : List Name) :
    listingKey (more ++ names) = listingKey names ++ listingKey more := by
  simp [listingKey]

theorem listingKey_inj (same : listingKey names = listingKey more) : names = more := by
  have bytes := List.map_injective_iff.2 (fun _ _ => Octets.bytes_inj) same
  exact List.reverse_injective bytes

theorem suffix_of_listingKey_prefix (part : listingKey names <+: listingKey more) :
    names <:+ more := by
  obtain ⟨rest, whole⟩ := part
  obtain ⟨outer, inner, parts, same, _⟩ := List.map_eq_append_iff.1 whole.symm
  have here : names = outer.reverse := listingKey_inj (by simp [listingKey, same])
  refine ⟨inner.reverse, ?_⟩
  rw [here, ← List.reverse_append, ← parts, List.reverse_reverse]

/-- What is sorted between a directory and something in it is in the directory. -/
theorem suffix_of_listingKey_le (first : listingKey names ≤ listingKey between)
    (last : listingKey between ≤ listingKey (more ++ names)) : names <:+ between := by
  rw [listingKey_append] at last
  exact suffix_of_listingKey_prefix (Scan.prefix_of_le_of_le first last)

theorem listingKey_le_append (more names : List Name) :
    listingKey names ≤ listingKey (more ++ names) := by
  rw [listingKey_append]
  exact List.le_append_left

theorem listingKey_eq (areTexts : AreTexts names) :
    listingKey names = (texts names).map Utf8.encode := by
  rw [listingKey, texts, List.map_map]
  refine List.map_congr_left fun name mem => ?_
  obtain ⟨t, rfl⟩ := areTexts name (List.mem_reverse.1 mem)
  rfl

end FileSystem

section

variable {placed front back : List (List Name × Entry)} {u v : List Name × Entry}
  {above above' : List Name} {e e' : Entry}

namespace IsWithin

theorem components_path (h : IsWithin placed above e) :
    Path.components e.path = (texts (.text e.name :: above)).map .name := by
  have some : Octets.text e.name :: above ≠ [] := List.cons_ne_nil _ _
  have parts := components_parentPath h.steps_names
  rwa [Scan.parentPath, if_neg some, if_neg some, List.nil_append, ← h.path_eq] at parts

theorem filter_components_parent (h : IsWithin placed above e) :
    (Path.components e.parent).filter Path.Component.isName = (texts above).map .name := by
  rw [h.parent]
  exact filter_components_parentPath rfl (fun _ => rfl) h.steps

theorem depth_eq (h : IsWithin placed above e) : e.depth = above.length := by
  rw [Entry.depth, Path.depth, h.filter_components_parent]
  simp [texts]

/-- Paths are in the order of their names. -/
theorem le_path_eq (h : IsWithin placed above e) (h' : IsWithin placed above' e') :
    Path.le e.path e'.path
      = decide (listingKey (.text e.name :: above) ≤ listingKey (.text e'.name :: above')) := by
  rw [Path.le, h.components_path, h'.components_path, Path.componentsLe_names,
    listingKey_eq h.areTexts_names, listingKey_eq h'.areTexts_names]

/-- Entries with one parent path are in one directory. -/
theorem above_inj (h : IsWithin placed above e) (h' : IsWithin placed above' e')
    (same : e.parent = e'.parent) : above = above' := by
  apply texts_inj h.areTexts h'.areTexts
  have parts := h.filter_components_parent
  rw [same, h'.filter_components_parent] at parts
  exact List.map_injective_iff.2 (fun _ _ => Path.Component.name.inj) parts.symm

end IsWithin

/-! ## Entries in the order of their paths -/

/-- The entries, each with the names that lead to it, are in the order of these names, and the
directories that they are in are among them. -/
structure IsOutlined (placed : List (List Name × Entry)) : Prop where
  ascending : placed.Pairwise fun v v' => listingKey v.1 < listingKey v'.1
  within : ∀ v ∈ placed, ∃ above, v.1 = .text v.2.name :: above ∧ IsWithin placed above v.2

/-- Sorting nested entries by their names outlines them. -/
theorem Nested.isOutlined (h : Nested placed) :
    IsOutlined (placed.mergeSort fun v v' => decide (listingKey v.1 ≤ listingKey v'.1)) where
  ascending :=
    pairwise_lt_mergeSort (fun v : List Name × Entry => listingKey v.1)
      (h.pairwise.imp fun differ same => differ (listingKey_inj same))
  within := by
    intro v mem
    obtain ⟨above, names, within⟩ := h.exists_isWithin (List.mem_mergeSort.1 mem)
    exact ⟨above, names, within.mono fun u there => List.mem_mergeSort.2 there⟩

namespace IsOutlined

variable {n : Name}

/-- In front of an entry stands its directory, and between the two only what is in there. -/
theorem exists_parent (h : IsOutlined (front ++ v :: back)) (names : v.1 = n :: above)
    (deep : above ≠ []) :
    ∃ before d between, front = before ++ (above, d) :: between ∧ d.kind = .directory
      ∧ ∀ u ∈ between, above <:+ u.1 ∧ u.1 ≠ above := by
  have child : listingKey above ≤ listingKey v.1 := names ▸ listingKey_le_append [n] above
  obtain ⟨outer, names', within⟩ := h.within v (List.mem_append_right _ List.mem_cons_self)
  obtain ⟨_, rfl⟩ := List.cons.inj (names.symm.trans names')
  obtain ⟨d, mem, kind⟩ := within.inside.resolve_left deep
  obtain ⟨ascending, ascending', apart⟩ := List.pairwise_append.1 h.ascending
  rcases List.mem_append.1 mem with inside | rest
  · obtain ⟨before, between, rfl⟩ := List.append_of_mem inside
    refine ⟨before, d, between, rfl, kind, ?_⟩
    intro u there
    have later : listingKey above < listingKey u.1 :=
      List.rel_of_pairwise_cons (List.pairwise_append.1 ascending).2.1 there
    have earlier : listingKey u.1 < listingKey v.1 :=
      apart u (List.mem_append_right _ (List.mem_cons_of_mem _ there)) v List.mem_cons_self
    have inside : listingKey u.1 ≤ listingKey ([n] ++ above) := by
      rw [names] at earlier
      exact List.le_of_lt earlier
    refine ⟨suffix_of_listingKey_le (List.le_of_lt later) inside, ?_⟩
    intro same
    rw [same] at later
    exact List.lt_irrefl _ later
  · rcases List.mem_cons.1 rest with same | later
    · rw [← same] at names
      exact absurd names.symm (List.cons_ne_self _ _)
    · have less : listingKey v.1 < listingKey above := List.rel_of_pairwise_cons ascending' later
      exact absurd less (List.not_lt.2 child)

/-- What stands right in front of an entry is its directory or something in there. -/
theorem suffix_of_next (h : IsOutlined (front ++ u :: v :: back)) (names : v.1 = n :: above) :
    above <:+ u.1 ∧ (u.1 = above → u.2.kind = .directory) := by
  by_cases deep : above = []
  · obtain ⟨_, names', _⟩ := h.within u (List.mem_append_right _ List.mem_cons_self)
    rw [deep, names']
    exact ⟨List.nil_suffix, fun same => absurd same (List.cons_ne_nil _ _)⟩
  · rw [List.append_cons] at h
    obtain ⟨before, d, between, split, kind, inside⟩ := h.exists_parent names deep
    rcases List.eq_nil_or_concat between with rfl | ⟨between, last, rfl⟩
    · obtain ⟨_, same⟩ := List.append_inj' split rfl
      obtain rfl := List.cons.inj same |>.1
      exact ⟨List.suffix_rfl, fun _ => kind⟩
    · rw [List.concat_eq_append, ← List.cons_append, ← List.append_assoc] at split
      obtain ⟨_, same⟩ := List.append_inj' split rfl
      obtain rfl := List.cons.inj same |>.1
      obtain ⟨part, differ⟩ := inside u (by simp)
      exact ⟨part, fun same => absurd same differ⟩

/-- A directory shows its contents in the order of their bytes. -/
theorem siblings (h : IsOutlined placed) : placed.Pairwise fun v v' =>
    v.2.parent = v'.2.parent → Utf8.encode v.2.name < Utf8.encode v'.2.name := by
  refine h.ascending.imp_of_mem fun {v v'} mem mem' less same => ?_
  obtain ⟨above, names, within⟩ := h.within v mem
  obtain ⟨above', names', within'⟩ := h.within v' mem'
  obtain rfl := within.above_inj within' same
  rw [names, names', ← List.singleton_append, ← List.singleton_append (l := above),
    listingKey_append, listingKey_append] at less
  have last : listingKey [.text v.2.name] < listingKey [.text v'.2.name] := by
    by_contra notLess
    exact absurd less (List.not_lt.2 (List.append_left_le (List.not_lt.1 notLess)))
  simpa [listingKey, List.cons_lt_cons_iff] using last

/-! ## Reading the lines -/

/-- The directories that are open behind some lines: the last one and those that it is in, or
those that the last entry is in if it is a file. -/
def openedBehind (front : List (List Name × Entry)) : List Text :=
  match front.getLast? with
  | none => []
  | some v => texts (if v.2.isDirectory then v.1 else v.1.tail)

theorem openedBehind_concat (front : List (List Name × Entry)) (v : List Name × Entry) :
    openedBehind (front ++ [v]) = texts (if v.2.isDirectory then v.1 else v.1.tail) := by
  simp [openedBehind]

theorem texts_prefix {names more : List Name} (part : names <:+ more) :
    texts names <+: texts more := by
  obtain ⟨inner, rfl⟩ := part
  rw [texts, texts, List.reverse_append, List.map_append]
  exact List.prefix_append _ _

/-- The directories that an entry is in are open in front of its line. -/
theorem prefix_openedBehind (h : IsOutlined (front ++ v :: back)) (names : v.1 = n :: above) :
    texts above <+: openedBehind front := by
  rcases List.eq_nil_or_concat front with rfl | ⟨front, u, rfl⟩
  · by_cases deep : above = []
    · rw [deep]
      exact List.nil_prefix
    · obtain ⟨before, d, between, split, _⟩ := h.exists_parent names deep
      simp at split
  · rw [List.concat_eq_append, List.append_assoc] at h
    obtain ⟨part, isDir⟩ := h.suffix_of_next names
    obtain ⟨outer, names', _⟩ := h.within u (List.mem_append_right _ List.mem_cons_self)
    rw [List.concat_eq_append, openedBehind_concat]
    apply texts_prefix
    split
    · exact part
    · rename_i file
      rw [names'] at part isDir ⊢
      rcases List.suffix_cons_iff.1 part with same | part
      · exact absurd (isDir same.symm) (by simpa [Entry.isDirectory] using file)
      · exact part

/-- Reading goes on behind any of the lines, by induction on those that are left. -/
theorem read_eq (h : IsOutlined (front ++ back)) :
    OutlineLine.read (openedBehind front) (back.map fun v => .ofEntry v.2)
      = some (back.map fun v => v.2.path) := by
  induction back generalizing front with
  | nil => rfl
  | cons v back ih =>
    obtain ⟨above, names, within⟩ := h.within v (List.mem_append_right _ List.mem_cons_self)
    have part := h.prefix_openedBehind names
    have depth : v.2.depth = (texts above).length := by simp [within.depth_eq, texts]
    have kept : (openedBehind front).take v.2.depth = texts above := by
      rw [depth]
      exact (List.prefix_iff_eq_take.1 part).symm
    have path : Text.joinWith '/' (texts above ++ [v.2.name]) = v.2.path := by
      rw [within.path_eq, relativePath_eq, texts_cons]
    have behind : openedBehind (front ++ [v])
        = if v.2.isDirectory then texts above ++ [v.2.name] else texts above := by
      rw [openedBehind_concat, names, List.tail_cons, ← texts_cons]
      split <;> rfl
    have short : ¬ (openedBehind front).length < v.2.depth := by
      rw [depth]
      exact Nat.not_lt.2 part.length_le
    rw [List.append_cons] at h
    simp only [List.map_cons, OutlineLine.read, OutlineLine.ofEntry, if_neg short, kept, path,
      ← behind]
    exact congrArg (Option.map (v.2.path :: ·)) (ih h)

end IsOutlined

end

/-! ## The outline of a template -/

/-- The entries are those of a tree in the order of an outline. -/
structure ShowsTree (es : List Entry) : Prop where
  /-- What is in one directory is in the order of the bytes of its names. -/
  siblings : es.Pairwise fun e e' =>
    e.parent = e'.parent → Utf8.encode e.name < Utf8.encode e'.name
  /-- An entry that is not at the root stands behind the directory that it is in, and nothing
  between the two is less deep than the entry. -/
  parent : ∀ front e back, es = front ++ e :: back → e.depth ≠ 0 →
    ∃ before d between, front = before ++ d :: between ∧ d.isDirectory = true
      ∧ d.path = e.parent ∧ e.depth = d.depth + 1 ∧ ∀ u ∈ between, e.depth ≤ u.depth
  /-- A line is deeper than the one before it by one level at most, and only if that is the line
  of a directory. -/
  next : ∀ front e e' back, es = front ++ e :: e' :: back → e.depth < e'.depth →
    e.isDirectory = true ∧ e'.depth = e.depth + 1
  /-- The paths are read back from the lines. -/
  read : OutlineLine.read [] (es.map .ofEntry) = some (es.map Entry.path)

theorem IsOutlined.showsTree {placed : List (List Name × Entry)} (h : IsOutlined placed) :
    ShowsTree (placed.map Prod.snd) where
  siblings := List.pairwise_map.2 h.siblings
  parent := by
    intro front e back split deep
    obtain ⟨front, rest, rfl, rfl, behind⟩ := List.map_eq_append_iff.1 split
    obtain ⟨v, back, rfl, rfl, rfl⟩ := List.map_eq_cons_iff.1 behind
    obtain ⟨above, names, within⟩ := h.within v (List.mem_append_right _ List.mem_cons_self)
    have some : above ≠ [] := by
      intro none
      simp [within.depth_eq, none] at deep
    obtain ⟨before, d, between, rfl, kind, inside⟩ := h.exists_parent names some
    obtain ⟨outer, outerNames, within'⟩ := h.within (above, d) (by simp)
    obtain rfl : above = .text d.name :: outer := outerNames
    have isDir : d.isDirectory = true := by simp [Entry.isDirectory, kind]
    refine ⟨before.map Prod.snd, d, between.map Prod.snd, by simp, isDir, ?_, ?_, ?_⟩
    · rw [within'.path_eq, within.parent, Scan.parentPath, if_neg some]
    · rw [within.depth_eq, within'.depth_eq, List.length_cons]
    · intro e mem
      obtain ⟨u, there, rfl⟩ := List.mem_map.1 mem
      obtain ⟨more, names', within''⟩ := h.within u (by simp [there])
      obtain ⟨part, differ⟩ := inside u there
      rw [names'] at part differ
      rw [within.depth_eq, within''.depth_eq]
      exact ((List.suffix_cons_iff.1 part).resolve_left differ.symm).length_le
  next := by
    intro front e e' back split deeper
    obtain ⟨front, rest, rfl, rfl, behind⟩ := List.map_eq_append_iff.1 split
    obtain ⟨u, rest, rfl, rfl, behind'⟩ := List.map_eq_cons_iff.1 behind
    obtain ⟨v, back, rfl, rfl, rfl⟩ := List.map_eq_cons_iff.1 behind'
    obtain ⟨above, names, within⟩ := h.within v (by simp)
    obtain ⟨outer, names', within'⟩ := h.within u (by simp)
    obtain ⟨part, isDir⟩ := h.suffix_of_next names
    rw [within.depth_eq, within'.depth_eq] at deeper ⊢
    rw [names'] at part isDir
    rcases List.suffix_cons_iff.1 part with rfl | part
    · exact ⟨by simp [Entry.isDirectory, isDir rfl], List.length_cons⟩
    · exact absurd part.length_le (Nat.not_le.2 deeper)
  read := by
    have whole : IsOutlined ([] ++ placed) := h
    rw [List.map_map, List.map_map]
    exact whole.read_eq

/-- The outline of a captured template has a line for each entry. The lines stand in such an order
that they show the tree: what is in a directory follows its line, one level deeper and in the
order of its names, and each path is read back from the depths, names and slashes of the lines.
The written lines are enough for that if no name looks like an indentation. -/
theorem outline_shows_tree {t : Template} (h : t.IsCaptured) :
    ∃ es, es.Perm t.entries ∧ t.outline = es.map (fun e => (OutlineLine.ofEntry e).text)
      ∧ ShowsTree es
      ∧ ((∀ e ∈ t.entries, ¬ Template.indentation <+: e.name) →
        t.outline.map OutlineLine.ofText = es.map .ofEntry) := by
  obtain ⟨placed, nested, entries⟩ := h.exists_nested
  have sorted : t.sortedEntries = (placed.mergeSort fun v v' =>
      decide (listingKey v.1 ≤ listingKey v'.1)).map Prod.snd := by
    rw [Template.sortedEntries, ← entries]
    refine (List.map_mergeSort fun v mem v' mem' => ?_).symm
    obtain ⟨above, names, within⟩ := nested.exists_isWithin mem
    obtain ⟨above', names', within'⟩ := nested.exists_isWithin mem'
    rw [within.le_path_eq within', ← names, ← names']
  have perm : t.sortedEntries.Perm t.entries := List.mergeSort_perm _ _
  refine ⟨t.sortedEntries, perm, rfl, sorted ▸ nested.isOutlined.showsTree, fun plain => ?_⟩
  have lines : t.outline = t.sortedEntries.map fun e => (OutlineLine.ofEntry e).text := rfl
  rw [lines, List.map_map]
  refine List.map_congr_left fun e mem => ?_
  have there := perm.mem_iff.1 mem
  obtain ⟨⟨names, e⟩, inside, rfl⟩ := List.mem_map.1 (entries ▸ there)
  obtain ⟨_, _, within⟩ := nested.exists_isWithin inside
  exact OutlineLine.ofText_text within.step.word (plain e there)

/-- A project in which a name begins like that of a directory. As a text it would come before the
file in the directory. -/
def hyphenated : FileSystem :=
  let inner : Place := .text ['a'] :: packageRoot
  ((((FileSystem.empty.put packageRoot (.directory 0o755)).put inner (.directory 0o755)).put
    (.text "a-b".toList :: packageRoot) (.directory 0o755)).put
    (.text ['c'] :: inner) (.file (.text "inner".toList) 0o644)).put
    inner (.directory 0o755)

/-- The template of the project. -/
def hyphenatedTemplate : Template :=
  ⟨[⟨['a'], .directory, ['.'], 0o755, none, []⟩,
    ⟨['c'], .file, ['a'], 0o644, some "inner".toList, []⟩,
    ⟨"a-b".toList, .directory, ['.'], 0o755, none, []⟩], []⟩

theorem isCaptured_hyphenated : hyphenatedTemplate.IsCaptured := by
  have project : IsProject hyphenated packageRoot := by decide +kernel
  have scanned : scan hyphenated [] (pathOf packageRoot) = .ok hyphenatedTemplate.entries := by
    rw [scan_pathOf project, Scan.visits_eq (by decide +kernel)]
    decide +kernel
  exact ⟨hyphenated, [], _, hyphenatedTemplate.entries, scanned, by decide +kernel⟩

/-- The file stays behind the line of its directory. -/
theorem outline_shows_tree_hyphenated :
    hyphenatedTemplate.outline = ["a/".toList, "    c".toList, "a-b/".toList]
      ∧ ∃ es, es.Perm hyphenatedTemplate.entries ∧ ShowsTree es
        ∧ hyphenatedTemplate.outline.map OutlineLine.ofText = es.map .ofEntry := by
  obtain ⟨es, perm, _, shows, texts⟩ := outline_shows_tree isCaptured_hyphenated
  have sorted : hyphenatedTemplate.sortedEntries = hyphenatedTemplate.entries :=
    List.mergeSort_of_pairwise (by decide +kernel)
  refine ⟨?_, es, perm, shows, texts (by decide +kernel)⟩
  rw [Template.outline, sorted]
  decide +kernel

end Scaffold
