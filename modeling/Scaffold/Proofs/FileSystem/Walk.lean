import Scaffold.FileSystem.Vacancy
import Scaffold.Proofs.Path.Steps

/-!
# Walks and resolutions

`Walks` and `Resolves` list the ways in which a walk or a resolution goes on, so that
what holds of them is proved by one case for each way. A resolution also tells which
links it has followed. A walk that is blocked is none of these.

Idle segments make no difference to a path that leads to a directory, and a path that
leads to a directory can be gone on from there.
-/

namespace Scaffold

namespace FileSystem

variable {fs : FileSystem} {goal : Goal} {here place link : Place} {segment : Text}
  {rest segments : List Text} {target : Path} {w : Walk} {links : Nat}

/-- A segment that names something, which may be asked for given the segments behind. -/
structure IsName (goal : Goal) (segment : Text) (rest : List Text) : Prop where
  notIdle : Path.isIdle segment = false
  notUp : segment ≠ ['.', '.']
  notSlashed : goal = .file → isSlashed rest = false
  fits : Text.fits maxNameLength segment = true

/-- How a walk goes that is not blocked. -/
inductive Walks (fs : FileSystem) (goal : Goal) : Place → List Text → Walk → Prop
  | done (here : Place) : Walks fs goal here [] (.arrived here)
  | idle {here : Place} {segment : Text} {rest : List Text} {w : Walk}
      (dir : fs.isDirectoryAt here = true) (none : Path.isIdle segment = true)
      (more : Walks fs goal here rest w) : Walks fs goal here (segment :: rest) w
  | up {here : Place} {rest : List Text} {w : Walk} (dir : fs.isDirectoryAt here = true)
      (more : Walks fs goal here.tail rest w) : Walks fs goal here (['.', '.'] :: rest) w
  | vacant {here : Place} {segment : Text} {rest : List Text} (dir : fs.isDirectoryAt here = true)
      (name : IsName goal segment rest) (free : fs.get? (.text segment :: here) = none)
      (last : rest.all (· = []) = true) :
      Walks fs goal here (segment :: rest) (.arrived (.text segment :: here))
  | entry {here : Place} {segment : Text} {target : Path} (dir : fs.isDirectoryAt here = true)
      (name : IsName goal segment []) (found : fs.get? (.text segment :: here) = some (.link target))
      (asked : goal = .entry) : Walks fs goal here [segment] (.arrived (.text segment :: here))
  | follow {here : Place} {segment : Text} {rest : List Text} {target : Path}
      (dir : fs.isDirectoryAt here = true) (name : IsName goal segment rest)
      (found : fs.get? (.text segment :: here) = some (.link target))
      (asked : rest = [] → goal ≠ .entry) :
      Walks fs goal here (segment :: rest) (.followed target (.text segment :: here) rest)
  | on {here : Place} {segment : Text} {rest : List Text} {x : Node} {w : Walk}
      (dir : fs.isDirectoryAt here = true) (name : IsName goal segment rest)
      (found : fs.get? (.text segment :: here) = some x) (notLink : ∀ target, x ≠ .link target)
      (more : Walks fs goal (.text segment :: here) rest w) : Walks fs goal here (segment :: rest) w

/-! ## One segment -/

theorem get?_of_isDirectoryAt (h : fs.isDirectoryAt here = true) :
    ∃ mode, fs.get? here = some (.directory mode) := by
  simp only [isDirectoryAt, Option.any_eq_true] at h
  obtain ⟨x, hx, dir⟩ := h
  obtain ⟨mode, rfl⟩ := Node.isDirectory_iff.1 dir
  exact ⟨mode, hx⟩

theorem isDirectoryAt_of_get? {mode : Mode} (h : fs.get? here = some (.directory mode)) :
    fs.isDirectoryAt here = true := by
  simp [isDirectoryAt, h, Node.isDirectory]

theorem walk_idle (dir : fs.isDirectoryAt here = true) (none : Path.isIdle segment = true) :
    walk fs goal here (segment :: rest) = walk fs goal here rest := by
  obtain ⟨mode, found⟩ := get?_of_isDirectoryAt dir
  rw [walk, found]
  simp [none]

theorem walk_up (dir : fs.isDirectoryAt here = true) :
    walk fs goal here (['.', '.'] :: rest) = walk fs goal here.tail rest := by
  obtain ⟨mode, found⟩ := get?_of_isDirectoryAt dir
  rw [walk, found]
  simp [Path.isIdle]

/-- At a name the node behind it decides. -/
theorem walk_name (dir : fs.isDirectoryAt here = true) (name : IsName goal segment rest) :
    walk fs goal here (segment :: rest) = match fs.get? (.text segment :: here) with
      | none => if rest.all (· = []) then .arrived (.text segment :: here) else .blocked .notFound
      | some (.link target) =>
        if rest = [] && goal = .entry then .arrived (.text segment :: here)
        else .followed target (.text segment :: here) rest
      | some _ => walk fs goal (.text segment :: here) rest := by
  obtain ⟨mode, found⟩ := get?_of_isDirectoryAt dir
  have notSlashed : ¬ (goal = .file && isSlashed rest) = true := by
    simpa using name.notSlashed
  rw [walk, found]
  cases next : fs.get? (.text segment :: here) with
  | none =>
    simp only [name.notIdle, name.notUp, notSlashed, name.fits, next, Bool.not_true,
      Bool.false_eq_true, if_false]
  | some x =>
    cases x <;> simp only [name.notIdle, name.notUp, notSlashed, name.fits, next, Bool.not_true,
      Bool.false_eq_true, if_false]

theorem walk_on {x : Node} (dir : fs.isDirectoryAt here = true) (name : IsName goal segment rest)
    (found : fs.get? (.text segment :: here) = some x) (notLink : ∀ target, x ≠ .link target) :
    walk fs goal here (segment :: rest) = walk fs goal (.text segment :: here) rest := by
  rw [walk_name dir name, found]
  cases x with
  | file => rfl
  | directory => rfl
  | link target => exact absurd rfl (notLink target)

theorem walk_follow (dir : fs.isDirectoryAt here = true) (name : IsName goal segment rest)
    (found : fs.get? (.text segment :: here) = some (.link target))
    (asked : rest = [] → goal ≠ .entry) :
    walk fs goal here (segment :: rest) = .followed target (.text segment :: here) rest := by
  have last : ¬ (rest = [] && goal = .entry) = true := by
    simpa using asked
  rw [walk_name dir name, found]
  simp only [last, Bool.false_eq_true, if_false]

/-- The entry of a name is arrived at, whatever stands there. -/
theorem walk_entry (dir : fs.isDirectoryAt here = true) (name : IsName .entry segment []) :
    walk fs .entry here [segment] = .arrived (.text segment :: here) := by
  rw [walk_name dir name]
  cases fs.get? (.text segment :: here) with
  | none => rfl
  | some x => cases x <;> simp [walk_nil]

/-- The ways of a walk are those that the walk takes. -/
theorem walk_eq_of_walks (h : Walks fs goal here segments w) : walk fs goal here segments = w := by
  induction h with
  | done here => rfl
  | idle dir none _ ih => rw [walk_idle dir none, ih]
  | up dir _ ih => rw [walk_up dir, ih]
  | vacant dir name free last =>
    rw [walk_name dir name, free]
    simp only [last, if_true]
  | entry dir name found asked =>
    rw [walk_name dir name, found]
    simp [asked]
  | follow dir name found asked => exact walk_follow dir name found asked
  | on dir name found notLink _ ih => rw [walk_on dir name found notLink, ih]

/-- A walk that is not blocked goes in one of the ways. -/
theorem walks_of_walk (h : walk fs goal here segments = w) (free : ∀ why, w ≠ .blocked why) :
    Walks fs goal here segments w := by
  fun_induction walk fs goal here segments with
  | case1 here => exact h ▸ .done here
  | case2 => exact absurd h.symm (free _)
  | case3 => exact absurd h.symm (free _)
  | case4 => exact absurd h.symm (free _)
  | case5 here segment rest mode found none ih =>
    exact .idle (isDirectoryAt_of_get? found) none (ih h)
  | case6 here rest mode found _ ih => exact .up (isDirectoryAt_of_get? found) (ih h)
  | case7 => exact absurd h.symm (free _)
  | case8 => exact absurd h.symm (free _)
  | case9 here segment rest mode found notIdle notUp notSlashed fits next none last =>
    have name : IsName goal segment rest :=
      ⟨by simpa using notIdle, notUp, by simpa using notSlashed, by simpa using fits⟩
    exact h ▸ .vacant (isDirectoryAt_of_get? found) name none last
  | case10 => exact absurd h.symm (free _)
  | case11 here segment rest mode found notIdle notUp notSlashed fits next target isLink asked =>
    simp only [Bool.and_eq_true, decide_eq_true_eq] at asked
    obtain ⟨rfl, asked⟩ := asked
    have name : IsName goal segment [] :=
      ⟨by simpa using notIdle, notUp, by simpa using notSlashed, by simpa using fits⟩
    exact h ▸ .entry (isDirectoryAt_of_get? found) name isLink asked
  | case12 here segment rest mode found notIdle notUp notSlashed fits next target isLink asked =>
    have name : IsName goal segment rest :=
      ⟨by simpa using notIdle, notUp, by simpa using notSlashed, by simpa using fits⟩
    exact h ▸ .follow (isDirectoryAt_of_get? found) name isLink (by simpa using asked)
  | case13 here segment rest mode found notIdle notUp notSlashed fits next x notLink hx ih =>
    have name : IsName goal segment rest :=
      ⟨by simpa using notIdle, notUp, by simpa using notSlashed, by simpa using fits⟩
    exact .on (isDirectoryAt_of_get? found) name hx (fun target => notLink target) (ih h)

/-- Where anything is still to be walked, a directory stands. -/
theorem Walks.isDirectoryAt (h : Walks fs goal here segments w) (more : segments ≠ []) :
    fs.isDirectoryAt here = true := by
  cases h with
  | done => exact absurd rfl more
  | idle dir => exact dir
  | up dir => exact dir
  | vacant dir => exact dir
  | entry dir => exact dir
  | follow dir => exact dir
  | on dir => exact dir

/-! ## Resolutions -/

/-- How a resolution goes that leads to a place, and which links it follows. -/
inductive Resolves (fs : FileSystem) (goal : Goal) :
    Nat → Place → List Text → List Place → Place → Prop
  | arrive {links : Nat} {here place : Place} {segments : List Text}
      (walks : Walks fs goal here segments (.arrived place)) :
      Resolves fs goal links here segments [] place
  | follow {links : Nat} {here link place : Place} {segments rest : List Text} {target : Path}
      {followed : List Place} (walks : Walks fs goal here segments (.followed target link rest))
      (more : Resolves fs goal links (startOf link.tail target) (Path.segments target ++ rest)
        followed place) :
      Resolves fs goal (links + 1) here segments (link :: followed) place

variable {followed : List Place}

theorem resolve_of_walk_arrived (h : walk fs goal here segments = .arrived place) :
    resolve fs goal links here segments = .ok place := by
  rw [resolve, h]

theorem resolve_of_walk_followed (h : walk fs goal here segments = .followed target link rest) :
    resolve fs goal (links + 1) here segments
      = resolve fs goal links (startOf link.tail target) (Path.segments target ++ rest) := by
  rw [resolve, h]

theorem Resolves.resolve_eq (h : Resolves fs goal links here segments followed place) :
    resolve fs goal links here segments = .ok place := by
  induction h with
  | arrive walks => exact resolve_of_walk_arrived (walk_eq_of_walks walks)
  | follow walks _ ih => rw [resolve_of_walk_followed (walk_eq_of_walks walks), ih]

theorem exists_resolves (h : resolve fs goal links here segments = .ok place) :
    ∃ followed, Resolves fs goal links here segments followed place := by
  induction links generalizing here segments with
  | zero =>
    rw [resolve] at h
    split at h
    · rename_i arrived walked
      obtain rfl := Except.ok.inj h
      exact ⟨[], .arrive (walks_of_walk walked (by simp))⟩
    · simp at h
    · simp at h
  | succ links ih =>
    rw [resolve] at h
    split at h
    · rename_i arrived walked
      obtain rfl := Except.ok.inj h
      exact ⟨[], .arrive (walks_of_walk walked (by simp))⟩
    · simp at h
    · rename_i target link rest walked
      obtain ⟨followed, more⟩ := ih h
      exact ⟨link :: followed, .follow (walks_of_walk walked (by simp)) more⟩

end FileSystem

end Scaffold
