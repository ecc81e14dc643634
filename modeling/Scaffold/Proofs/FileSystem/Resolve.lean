import Scaffold.Proofs.FileSystem.Walk

/-!
# What a resolution leads to

A path that is resolved for a file or for the entry at its end leads, if it leads to no
link, where it leads when links are followed. A path that leads to a directory may be
cut or gone on: idle segments may be added or left out, each front part of it leads to
a directory too, and whatever stands behind it is resolved from there with the links
that are left.
-/

namespace Scaffold

namespace FileSystem

variable {fs : FileSystem} {goal : Goal} {here place link dir : Place} {segment : Text}
  {rest segments : List Text} {target : Path} {w : Walk} {links : Nat} {followed : List Place}

theorem IsName.change {goal' : Goal} {rest' : List Text} (h : IsName goal segment rest)
    (slashed : goal' = .file → isSlashed rest' = false) : IsName goal' segment rest' :=
  ⟨h.notIdle, h.notUp, slashed, h.fits⟩

/-! ## Goals -/

theorem Walks.node_of_file (h : Walks fs .file here segments w) :
    Walks fs .node here segments w := by
  induction h with
  | done here => exact .done here
  | idle dir none _ ih => exact .idle dir none ih
  | up dir _ ih => exact .up dir ih
  | vacant dir name free last => exact .vacant dir (name.change (by simp)) free last
  | entry dir name found asked => simp at asked
  | follow dir name found asked => exact .follow dir (name.change (by simp)) found (by simp)
  | on dir name found notLink _ ih => exact .on dir (name.change (by simp)) found notLink ih

/-- A path at which a file can be made is a path that leads there. -/
theorem Resolves.node_of_file (h : Resolves fs .file links here segments followed place) :
    Resolves fs .node links here segments followed place := by
  induction h with
  | arrive walks => exact .arrive walks.node_of_file
  | follow walks _ ih => exact .follow walks.node_of_file ih

theorem Walks.node_of_entry (h : Walks fs .entry here segments w)
    (notLink : ∀ place, w = .arrived place → ∀ target, fs.get? place ≠ some (.link target)) :
    Walks fs .node here segments w := by
  induction h with
  | done here => exact .done here
  | idle dir none _ ih => exact .idle dir none (ih notLink)
  | up dir _ ih => exact .up dir (ih notLink)
  | vacant dir name free last => exact .vacant dir (name.change (by simp)) free last
  | entry dir name found asked => exact absurd found (notLink _ rfl _)
  | follow dir name found asked => exact .follow dir (name.change (by simp)) found (by simp)
  | on dir name found other _ ih => exact .on dir (name.change (by simp)) found other (ih notLink)

/-- The entry at the end of a path is what the path leads to, unless it is a link. -/
theorem Resolves.node_of_entry (h : Resolves fs .entry links here segments followed place)
    (notLink : ∀ target, fs.get? place ≠ some (.link target)) :
    Resolves fs .node links here segments followed place := by
  induction h with
  | arrive walks =>
    refine .arrive (walks.node_of_entry ?_)
    rintro place ⟨⟩
    exact notLink
  | follow walks _ ih => exact .follow (walks.node_of_entry (by simp)) (ih notLink)

private theorem isDirectoryAt_tail (dir : fs.isDirectoryAt here = true) :
    fs.isDirectoryAt here.tail = true := by
  cases here with
  | nil => exact dir
  | cons name parent =>
    obtain ⟨mode, found⟩ := get?_of_isDirectoryAt dir
    exact isDirectoryAt_of_get?_cons found

private theorem Walks.not_link_of_node (h : Walks fs .node here segments w)
    (start : fs.isDirectoryAt here = true ∨ ∃ x, fs.get? here = some x ∧ ∀ target, x ≠ .link target)
    (arrived : w = .arrived place) (target : Path) : fs.get? place ≠ some (.link target) := by
  induction h with
  | done here =>
    cases arrived
    intro isLink
    rcases start with dir | ⟨x, found, notLink⟩
    · simp [FileSystem.isDirectoryAt, isLink, Node.isDirectory] at dir
    · exact notLink target (Option.some.inj (found.symm.trans isLink))
  | idle _ _ _ ih => exact ih start arrived
  | up dir _ ih => exact ih (.inl (isDirectoryAt_tail dir)) arrived
  | vacant _ _ free =>
    cases arrived
    simp [free]
  | entry _ _ _ asked => simp at asked
  | follow => simp at arrived
  | on _ _ found notLink _ ih => exact ih (.inr ⟨_, found, notLink⟩) arrived

/-- When links are followed, a path does not lead to a link. -/
theorem Resolves.not_link_of_node (h : Resolves fs .node links here segments followed place)
    (some : segments ≠ []) (target : Path) : fs.get? place ≠ Option.some (.link target) := by
  induction h with
  | arrive walks => exact walks.not_link_of_node (.inl (walks.isDirectoryAt some)) rfl target
  | follow _ _ ih => exact ih (by simp [Path.segments, Text.split_ne_nil])

/-! ## Slashes at the end -/

private theorem getLast?_cons_of_ne_nil (some : rest ≠ []) :
    (segment :: rest).getLast? = rest.getLast? := by
  obtain ⟨next, more, rfl⟩ := List.exists_cons_of_ne_nil some
  exact List.getLast?_cons_cons

private theorem Walks.not_file_of_slash (h : Walks fs goal here segments w)
    (slash : segments.getLast? = some []) :
    (∀ place, w = .arrived place → ∀ content mode, fs.get? place ≠ some (.file content mode))
      ∧ ∀ target link rest, w = .followed target link rest → rest.getLast? = some [] := by
  induction h with
  | done => simp at slash
  | @idle here segment rest w dir none more ih =>
    by_cases last : rest = []
    · subst last
      cases more
      refine ⟨?_, by simp⟩
      rintro place ⟨⟩ content mode found
      simp [FileSystem.isDirectoryAt, found, Node.isDirectory] at dir
    · exact ih (getLast?_cons_of_ne_nil last ▸ slash)
  | @up here rest w dir more ih =>
    have last : rest ≠ [] := by
      rintro rfl
      simp at slash
    exact ih (getLast?_cons_of_ne_nil last ▸ slash)
  | vacant dir name free last =>
    refine ⟨?_, by simp⟩
    rintro place ⟨⟩
    simp [free]
  | entry dir name found asked =>
    obtain rfl := Option.some.inj slash
    exact absurd name.notIdle (by decide)
  | @follow here segment rest target dir name found asked =>
    have last : rest ≠ [] := by
      rintro rfl
      obtain rfl := Option.some.inj slash
      exact absurd name.notIdle (by decide)
    refine ⟨by simp, ?_⟩
    rintro target link rest ⟨⟩
    exact getLast?_cons_of_ne_nil last ▸ slash
  | @on here segment rest x w dir name found notLink more ih =>
    have last : rest ≠ [] := by
      rintro rfl
      obtain rfl := Option.some.inj slash
      exact absurd name.notIdle (by decide)
    exact ih (getLast?_cons_of_ne_nil last ▸ slash)

/-- A path with a slash at its end leads to no file. -/
theorem Resolves.getLast?_ne_of_file {content : Octets} {mode : Mode}
    (h : Resolves fs goal links here segments followed place)
    (found : fs.get? place = some (.file content mode)) : segments.getLast? ≠ some [] := by
  induction h with
  | arrive walks => exact fun slash => (walks.not_file_of_slash slash).1 _ rfl _ _ found
  | follow walks _ ih =>
    intro slash
    have behind := (walks.not_file_of_slash slash).2 _ _ _ rfl
    refine ih found ?_
    rw [List.getLast?_append, behind]
    rfl

private theorem Walks.file_of_node (h : Walks fs .node here segments w)
    (noSlash : segments.getLast? ≠ some []) : Walks fs .file here segments w := by
  have notSlashed {segment : Text} {rest : List Text}
      (noSlash : (segment :: rest).getLast? ≠ some []) : isSlashed rest = false := by
    refine Bool.eq_false_iff.2 fun slashed => noSlash ?_
    simp only [isSlashed, Bool.and_eq_true, List.all_eq_true, decide_eq_true_eq] at slashed
    rw [getLast?_cons_of_ne_nil slashed.1, List.getLast?_eq_some_getLast slashed.1,
      slashed.2 _ (List.getLast_mem slashed.1)]
  have behind {segment : Text} {rest : List Text}
      (noSlash : (segment :: rest).getLast? ≠ some []) : rest.getLast? ≠ some [] := by
    by_cases last : rest = []
    · simp [last]
    · rwa [getLast?_cons_of_ne_nil last] at noSlash
  induction h with
  | done here => exact .done here
  | idle dir none _ ih => exact .idle dir none (ih (behind noSlash))
  | up dir _ ih => exact .up dir (ih (behind noSlash))
  | vacant dir name free last =>
    exact .vacant dir (name.change fun _ => notSlashed noSlash) free last
  | entry dir name found asked => simp at asked
  | follow dir name found asked =>
    exact .follow dir (name.change fun _ => notSlashed noSlash) found (by simp)
  | on dir name found notLink _ ih =>
    exact .on dir (name.change fun _ => notSlashed noSlash) found notLink (ih (behind noSlash))

/-- A file that is led to can be opened there. -/
theorem Resolves.file_of_node {content : Octets} {mode : Mode}
    (h : Resolves fs .node links here segments followed place)
    (found : fs.get? place = some (.file content mode)) :
    Resolves fs .file links here segments followed place := by
  have noSlash := h.getLast?_ne_of_file found
  induction h with
  | arrive walks => exact .arrive (walks.file_of_node noSlash)
  | follow walks more ih =>
    exact .follow (walks.file_of_node noSlash) (ih found (more.getLast?_ne_of_file found))

/-! ## The last name -/

private theorem Walks.ends_in_name {front : List Text} {name : Text}
    (h : Walks fs .entry here segments w) (last : segments = front ++ [name])
    (notIdle : Path.isIdle name = false) (notUp : name ≠ ['.', '.']) :
    (∀ place, w = .arrived place → ∃ dir, place = .text name :: dir)
      ∧ ∀ target link rest, w = .followed target link rest → ∃ front, rest = front ++ [name] := by
  induction h generalizing front with
  | done => simp at last
  | idle dir none _ ih =>
    rcases List.cons_eq_append_iff.1 last with ⟨rfl, first⟩ | ⟨front, rfl, others⟩
    · obtain ⟨rfl, _⟩ := List.cons.inj first
      simp [none] at notIdle
    · exact ih others
  | up dir _ ih =>
    rcases List.cons_eq_append_iff.1 last with ⟨rfl, first⟩ | ⟨front, rfl, others⟩
    · exact absurd (List.cons.inj first).1 notUp
    · exact ih others
  | vacant dir _ free idle =>
    rcases List.cons_eq_append_iff.1 last with ⟨rfl, first⟩ | ⟨front, rfl, others⟩
    · obtain ⟨rfl, _⟩ := List.cons.inj first
      exact ⟨fun place eq => ⟨_, (Walk.arrived.inj eq).symm⟩, by simp⟩
    · subst others
      simp only [List.all_append, List.all_cons, List.all_nil, Bool.and_true, Bool.and_eq_true,
        decide_eq_true_eq] at idle
      simp [Path.isIdle, idle.2] at notIdle
  | entry dir _ found asked =>
    rcases List.cons_eq_append_iff.1 last with ⟨rfl, first⟩ | ⟨front, rfl, others⟩
    · obtain ⟨rfl, _⟩ := List.cons.inj first
      exact ⟨fun place eq => ⟨_, (Walk.arrived.inj eq).symm⟩, by simp⟩
    · simp at others
  | follow dir _ found asked =>
    rcases List.cons_eq_append_iff.1 last with ⟨rfl, first⟩ | ⟨front, rfl, others⟩
    · exact absurd rfl (asked (List.cons.inj first).2.symm)
    · refine ⟨by simp, fun target link rest eq => ⟨front, ?_⟩⟩
      simp only [Walk.followed.injEq] at eq
      exact eq.2.2 ▸ others
  | on dir _ found notLink more ih =>
    rcases List.cons_eq_append_iff.1 last with ⟨rfl, first⟩ | ⟨front, rfl, others⟩
    · obtain ⟨rfl, rfl⟩ := List.cons.inj first
      cases more
      exact ⟨fun place eq => ⟨_, (Walk.arrived.inj eq).symm⟩, by simp⟩
    · exact ih others

/-- The entry at the end of a path has the last name of the path. -/
theorem Resolves.ends_in_name {front : List Text} {name : Text}
    (h : Resolves fs .entry links here segments followed place) (last : segments = front ++ [name])
    (notIdle : Path.isIdle name = false) (notUp : name ≠ ['.', '.']) :
    ∃ dir, place = .text name :: dir := by
  induction h generalizing front with
  | arrive walks => exact (walks.ends_in_name last notIdle notUp).1 _ rfl
  | follow walks _ ih =>
    obtain ⟨front, rfl⟩ := (walks.ends_in_name last notIdle notUp).2 _ _ _ rfl
    exact ih (List.append_assoc _ _ _).symm

/-- The last of the segments names something or goes up. -/
def LastIsStep (segments : List Text) : Prop :=
  ∃ front last, segments = front ++ [last] ∧ Path.isIdle last = false

private theorem LastIsStep.cons (h : LastIsStep rest) (segment : Text) :
    LastIsStep (segment :: rest) := by
  obtain ⟨front, last, rfl, step⟩ := h
  exact ⟨segment :: front, last, rfl, step⟩

private theorem Walks.lastIsStep (h : Walks fs .file here segments w) (some : segments ≠ [])
    (noDir : ∀ place, w = .arrived place → fs.isDirectoryAt place = false)
    (behind : ∀ target link rest, w = .followed target link rest → rest ≠ [] → LastIsStep rest) :
    LastIsStep segments := by
  induction h with
  | done => exact absurd rfl some
  | idle dir none more ih =>
    refine (ih (fun last => ?_) noDir behind).cons _
    subst last
    cases more
    simp [dir] at noDir
  | up dir more ih =>
    refine (ih (fun last => ?_) noDir behind).cons _
    subst last
    cases more
    simp [isDirectoryAt_tail dir] at noDir
  | @vacant here segment rest dir name free last =>
    have notSlashed := name.notSlashed rfl
    obtain rfl : rest = [] := by simpa [isSlashed, last] using notSlashed
    exact ⟨[], segment, rfl, name.notIdle⟩
  | entry _ _ _ asked => simp at asked
  | @follow here segment rest target dir name found asked =>
    by_cases last : rest = []
    · subst last
      exact ⟨[], segment, rfl, name.notIdle⟩
    · exact (behind _ _ _ rfl last).cons segment
  | @on here segment rest x w dir name found notLink more ih =>
    by_cases last : rest = []
    · subst last
      exact ⟨[], segment, rfl, name.notIdle⟩
    · exact (ih last noDir behind).cons segment

/-- Under a path that does not end in a step no file is made. -/
theorem Resolves.lastIsStep (h : Resolves fs .file links here segments followed place)
    (some : segments ≠ []) (noDir : fs.isDirectoryAt place = false) : LastIsStep segments := by
  induction h with
  | arrive walks =>
    refine walks.lastIsStep some ?_ (by simp)
    rintro place ⟨⟩
    exact noDir
  | @follow links here link place segments rest target followed walks _ ih =>
    refine walks.lastIsStep some (by simp) ?_
    rintro _ _ rest ⟨⟩ more
    obtain ⟨front, last, parts, step⟩ := ih (by simp [more]) noDir
    rcases List.append_eq_append_iff.1 parts with ⟨between, _, rest_eq⟩ | ⟨between, _, last_eq⟩
    · exact ⟨between, last, rest_eq, step⟩
    · rcases List.append_eq_singleton_iff.1 last_eq.symm with ⟨_, rfl⟩ | ⟨_, none⟩
      · exact ⟨[], last, rfl, step⟩
      · exact absurd none more

/-! ## Idle segments -/

theorem Walks.idle_append {idles : List Text} (dir : fs.isDirectoryAt here = true)
    (none : ∀ s ∈ idles, Path.isIdle s = true) (h : Walks fs goal here segments w) :
    Walks fs goal here (idles ++ segments) w := by
  induction idles with
  | nil => exact h
  | cons s idles ih =>
    exact .idle dir (none s List.mem_cons_self) (ih fun s hs => none s (List.mem_cons_of_mem _ hs))

/-- Two lists of segments with the same steps. -/
def SameSteps (a b : List Text) : Prop :=
  a.filter (fun s => !Path.isIdle s) = b.filter fun s => !Path.isIdle s

private theorem SameSteps.cons {s : Text} {b : List Text} (h : SameSteps (s :: rest) b)
    (step : Path.isIdle s = false) :
    ∃ idles more, b = idles ++ s :: more ∧ (∀ t ∈ idles, Path.isIdle t = true)
      ∧ SameSteps rest more := by
  rw [SameSteps, List.filter_cons_of_pos (by simp [step])] at h
  obtain ⟨idles, more, rfl, none, _, others⟩ := List.filter_eq_cons_iff.1 h.symm
  exact ⟨idles, more, rfl, by simpa using none, others.symm⟩

private theorem Walks.sameSteps {segments' : List Text} (h : Walks fs .node here segments w)
    (same : SameSteps segments segments') :
    (∀ place, w = .arrived place → fs.isDirectoryAt place = true →
        Walks fs .node here segments' (.arrived place))
      ∧ ∀ target link rest, w = .followed target link rest →
        ∃ rest', SameSteps rest rest' ∧ Walks fs .node here segments' (.followed target link rest')
    := by
  induction h generalizing segments' with
  | done here =>
    refine ⟨?_, by simp⟩
    rintro place ⟨⟩ dir
    have none : ∀ s ∈ segments', Path.isIdle s = true := by
      simpa [SameSteps, List.filter_eq_nil_iff] using same.symm
    simpa using Walks.idle_append dir none (.done here)
  | idle dir none _ ih =>
    refine ih ?_
    simpa [SameSteps, none] using same
  | up dir _ ih =>
    obtain ⟨idles, more, rfl, none, others⟩ := same.cons (by decide)
    obtain ⟨arrived, followed⟩ := ih others
    refine ⟨fun place eq there => .idle_append dir none (.up dir (arrived place eq there)), ?_⟩
    intro target link rest eq
    obtain ⟨rest', same, walks⟩ := followed target link rest eq
    exact ⟨rest', same, .idle_append dir none (.up dir walks)⟩
  | vacant dir name free last =>
    refine ⟨?_, by simp⟩
    rintro place ⟨⟩ there
    simp [FileSystem.isDirectoryAt, free] at there
  | entry dir name found asked => simp at asked
  | follow dir name found asked =>
    obtain ⟨idles, more, rfl, none, others⟩ := same.cons name.notIdle
    refine ⟨by simp, ?_⟩
    rintro target link rest ⟨⟩
    exact ⟨more, others,
      .idle_append dir none (.follow dir (name.change (by simp)) found (by simp))⟩
  | on dir name found notLink _ ih =>
    obtain ⟨idles, more, rfl, none, others⟩ := same.cons name.notIdle
    have name' : IsName .node _ more := name.change (by simp)
    have on {w : Walk} (walks : Walks fs .node _ more w) := Walks.on dir name' found notLink walks
    obtain ⟨arrived, followed⟩ := ih others
    refine ⟨fun place eq there => .idle_append dir none (on (arrived place eq there)), ?_⟩
    intro target link rest eq
    obtain ⟨rest', same, walks⟩ := followed target link rest eq
    exact ⟨rest', same, .idle_append dir none (on walks)⟩

/-- Paths with the same steps lead to the same directories. -/
theorem Resolves.sameSteps {segments' : List Text}
    (h : Resolves fs .node links here segments followed dir)
    (there : fs.isDirectoryAt dir = true) (same : SameSteps segments segments') :
    Resolves fs .node links here segments' followed dir := by
  induction h generalizing segments' with
  | arrive walks => exact .arrive ((walks.sameSteps same).1 _ rfl there)
  | follow walks _ ih =>
    obtain ⟨rest', others, walks⟩ := (walks.sameSteps same).2 _ _ _ rfl
    refine .follow walks (ih there ?_)
    rw [SameSteps, List.filter_append, List.filter_append, others]

/-! ## Front parts -/

theorem isSlashed_append {b : List Text} (a : List Text) (some : ∃ s ∈ b, s ≠ []) :
    isSlashed (a ++ b) = false := by
  obtain ⟨s, mem, nonempty⟩ := some
  apply Bool.eq_false_iff.2
  intro slashed
  simp only [isSlashed, Bool.and_eq_true, List.all_eq_true, decide_eq_true_eq] at slashed
  exact nonempty (slashed.2 s (List.mem_append_right _ mem))

/-- A walk to a directory goes on with whatever is asked for behind it. -/
private theorem Walks.append {a b : List Text} (h : Walks fs .node here a w)
    (some : ∃ s ∈ b, s ≠ []) :
    (∀ place, w = .arrived place → fs.isDirectoryAt place = true →
        walk fs goal here (a ++ b) = walk fs goal place b)
      ∧ ∀ target link rest, w = .followed target link rest →
        walk fs goal here (a ++ b) = .followed target link (rest ++ b) := by
  induction h with
  | done here =>
    refine ⟨?_, by simp⟩
    rintro place ⟨⟩ _
    rfl
  | idle dir none _ ih =>
    rw [List.cons_append, walk_idle dir none]
    exact ih
  | up dir _ ih =>
    rw [List.cons_append, walk_up dir]
    exact ih
  | vacant dir name free last =>
    refine ⟨?_, by simp⟩
    rintro place ⟨⟩ there
    simp [FileSystem.isDirectoryAt, free] at there
  | entry dir name found asked => simp at asked
  | follow dir name found asked =>
    have nonempty : ∀ rest : List Text, rest ++ b ≠ [] := by
      intro rest none
      obtain ⟨s, mem, _⟩ := some
      simp [(List.append_eq_nil_iff.1 none).2] at mem
    refine ⟨by simp, ?_⟩
    rintro target link rest ⟨⟩
    rw [List.cons_append]
    exact walk_follow dir (name.change fun _ => isSlashed_append _ some) found
      fun none => absurd none (nonempty _)
  | on dir name found notLink _ ih =>
    rw [List.cons_append,
      walk_on dir (name.change fun _ => isSlashed_append _ some) found notLink]
    exact ih

/-- What stands behind a path to a directory is resolved from there, with the links
that are left, whatever it is resolved for. -/
theorem Resolves.append {a : List Text} (h : Resolves fs .node links here a followed dir)
    (there : fs.isDirectoryAt dir = true) :
    ∃ left, ∀ goal (b : List Text), (∃ s ∈ b, s ≠ []) →
      resolve fs goal links here (a ++ b) = resolve fs goal left dir b := by
  induction h with
  | @arrive links here place a walks =>
    refine ⟨links, fun goal b some => ?_⟩
    have walked : walk fs goal here (a ++ b) = _ := (walks.append some).1 _ rfl there
    rw [resolve, resolve, walked]
  | follow walks _ ih =>
    obtain ⟨left, behind⟩ := ih there
    refine ⟨left, fun goal b some => ?_⟩
    rw [resolve_of_walk_followed ((walks.append some).2 _ _ _ rfl), ← List.append_assoc,
      behind goal b some]

private theorem Walks.front {a b : List Text} (h : Walks fs goal here segments w)
    (parts : segments = a ++ b)
    (there : b.all (· = []) = true → ∀ place, w = .arrived place → fs.isDirectoryAt place = true) :
    (∃ place, fs.isDirectoryAt place = true ∧ Walks fs .node here a (.arrived place))
      ∨ ∃ target link rest, w = .followed target link (rest ++ b)
        ∧ Walks fs .node here a (.followed target link rest) := by
  induction a generalizing here segments with
  | nil =>
    have dir : fs.isDirectoryAt here = true := by
      by_cases none : segments = []
      · subst none
        cases h
        obtain rfl : b = [] := parts.symm
        exact there rfl _ rfl
      · exact h.isDirectoryAt none
    exact .inl ⟨here, dir, .done here⟩
  | cons s a ih =>
    cases h with
    | done => simp at parts
    | idle dir none more =>
      obtain ⟨rfl, others⟩ := List.cons.inj parts
      rcases ih more others with ⟨place, found, walks⟩ | ⟨target, link, rest, eq, walks⟩
      · exact .inl ⟨place, found, .idle dir none walks⟩
      · exact .inr ⟨target, link, rest, eq, .idle dir none walks⟩
    | up dir more =>
      obtain ⟨rfl, others⟩ := List.cons.inj parts
      rcases ih more others with ⟨place, found, walks⟩ | ⟨target, link, rest, eq, walks⟩
      · exact .inl ⟨place, found, .up dir walks⟩
      · exact .inr ⟨target, link, rest, eq, .up dir walks⟩
    | vacant dir name free last =>
      obtain ⟨_, others⟩ := List.cons.inj parts
      change _ = a ++ b at others
      rw [others, List.all_append, Bool.and_eq_true] at last
      have found := there last.2 _ rfl
      simp [FileSystem.isDirectoryAt, free] at found
    | entry dir name isLink asked =>
      obtain ⟨_, others⟩ := List.cons.inj parts
      have found := there (by simp [(List.append_eq_nil_iff.1 others.symm).2]) _ rfl
      simp [FileSystem.isDirectoryAt, isLink, Node.isDirectory] at found
    | follow dir name found asked =>
      obtain ⟨rfl, rfl⟩ := List.cons.inj parts
      exact .inr ⟨_, _, a, rfl, .follow dir (name.change (by simp)) found (by simp)⟩
    | on dir name found notLink more =>
      obtain ⟨rfl, others⟩ := List.cons.inj parts
      have name' : IsName .node _ a := name.change (by simp)
      have on {w : Walk} (walks : Walks fs .node _ a w) := Walks.on dir name' found notLink walks
      rcases ih more others with ⟨place, found, walks⟩ | ⟨target, link, rest, eq, walks⟩
      · exact .inl ⟨place, found, on walks⟩
      · exact .inr ⟨target, link, rest, eq, on walks⟩

/-- Every front part of a path leads to a directory, over links of the path, if more than
slashes stand behind it or the whole path does. -/
theorem Resolves.front {a b : List Text} (h : Resolves fs goal links here segments followed place)
    (parts : segments = a ++ b) (there : b.all (· = []) = true → fs.isDirectoryAt place = true) :
    ∃ followed' dir, Resolves fs .node links here a followed' dir
      ∧ fs.isDirectoryAt dir = true ∧ followed' ⊆ followed := by
  induction h generalizing a with
  | arrive walks =>
    rcases walks.front parts (by rintro last place ⟨⟩; exact there last) with
      ⟨dir, found, front⟩ | ⟨target, link, rest, eq, _⟩
    · exact ⟨[], dir, .arrive front, found, List.nil_subset _⟩
    · simp at eq
  | follow walks _ ih =>
    rcases walks.front parts (by simp) with ⟨dir, found, front⟩ | ⟨target, link, rest, eq, front⟩
    · exact ⟨[], dir, .arrive front, found, List.nil_subset _⟩
    · simp only [Walk.followed.injEq] at eq
      obtain ⟨rfl, rfl, rfl⟩ := eq
      obtain ⟨followed', dir, more, found, part⟩ := ih (List.append_assoc _ _ _).symm there
      exact ⟨_, dir, .follow front more, found, List.cons_subset_cons _ part⟩

end FileSystem

end Scaffold
