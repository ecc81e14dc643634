import Scaffold.Proofs.FileSystem.Resolve

/-!
# Resolutions across changes

A resolution depends on the directories and links that it passes and a little on what
stands at its end. As long as these stay, a change of the file system does not divert
it. If a link that it follows becomes a file, it ends there or is refused.
-/

namespace Scaffold

namespace FileSystem

variable {fs fs' : FileSystem} {goal : Goal} {here place link : Place} {segment : Text}
  {rest segments : List Text} {target : Path} {w : Walk} {links : Nat} {followed : List Place}
  {content : Octets} {mode : Mode}

/-- Directories stay directories, perhaps with another mode. -/
def KeepsDirectories (fs fs' : FileSystem) : Prop :=
  ∀ q, fs.isDirectoryAt q = true → fs'.isDirectoryAt q = true

/-- What stands in `fs'` at the end of a resolution in `fs` does not divert it: nothing, a
directory, or a file. A file must not have come where a slash is behind. -/
inductive Ends (fs fs' : FileSystem) (goal : Goal) (segments : List Text) (place : Place) : Prop
  | free (none : fs'.get? place = none)
  | directory (dir : fs'.isDirectoryAt place = true)
  | file {content : Octets} {mode : Mode} (found : fs'.get? place = some (.file content mode))
      (behind : fs.get? place ≠ none ∨ goal = .file
        ∨ goal = .entry ∧ segments.getLast? ≠ some [])

private theorem Ends.change {segments' : List Text} (h : Ends fs fs' goal segments place)
    (last : goal = .entry → segments'.getLast? = some [] → segments.getLast? = some []) :
    Ends fs fs' goal segments' place := by
  cases h with
  | free none => exact .free none
  | directory dir => exact .directory dir
  | file found behind =>
    refine .file found (behind.imp_right (Or.imp_right ?_))
    exact fun ⟨asked, noSlash⟩ => ⟨asked, fun slash => noSlash (last asked slash)⟩

private theorem Ends.tail (h : Ends fs fs' goal (segment :: rest) place) :
    Ends fs fs' goal rest place :=
  h.change fun _ last => by simp [List.getLast?_cons, last]

/-- A last name is walked to in `fs'` as well. -/
private theorem Ends.walks (h : Ends fs fs' goal (segment :: rest) (.text segment :: here))
    (dir : fs'.isDirectoryAt here = true) (name : IsName goal segment rest)
    (last : rest.all (· = []) = true) (found : fs.get? (.text segment :: here) ≠ none → rest = []) :
    Walks fs' goal here (segment :: rest) (.arrived (.text segment :: here)) := by
  have idle : ∀ s ∈ rest, Path.isIdle s = true := by
    intro s hs
    have empty : s = [] := by simpa using List.all_eq_true.1 last s hs
    simp [empty, Path.isIdle]
  cases h with
  | free none => exact .vacant dir name none last
  | directory there =>
    obtain ⟨mode, isDir⟩ := get?_of_isDirectoryAt there
    refine .on dir name isDir (by simp) ?_
    simpa using Walks.idle_append there idle (.done _)
  | file isFile behind =>
    have short : rest = [] := by
      rcases behind with old | asked | ⟨_, noSlash⟩
      · exact found old
      · have notSlashed := name.notSlashed asked
        simpa [isSlashed, last] using notSlashed
      · refine Decidable.byContradiction fun some => noSlash ?_
        have empty : rest.getLast some = [] := by
          simpa using List.all_eq_true.1 last _ (List.getLast_mem some)
        rw [List.getLast?_cons, List.getLast?_eq_some_getLast some, empty]
        rfl
    subst short
    exact .on dir name isFile (by simp) (.done _)

theorem Walks.frame_arrived (dirs : KeepsDirectories fs fs') (h : Walks fs goal here segments w)
    (arrived : w = .arrived place) (ends : Ends fs fs' goal segments place) :
    Walks fs' goal here segments (.arrived place) := by
  induction h with
  | done here =>
    cases arrived
    exact .done _
  | idle dir none _ ih => exact .idle (dirs _ dir) none (ih arrived ends.tail)
  | up dir _ ih => exact .up (dirs _ dir) (ih arrived ends.tail)
  | vacant dir name free last =>
    cases arrived
    exact ends.walks (dirs _ dir) name last fun old => absurd free old
  | entry dir name found asked =>
    cases arrived
    exact ends.walks (dirs _ dir) name rfl fun _ => rfl
  | follow => simp at arrived
  | @on here segment rest x w dir name found notLink more ih =>
    by_cases short : rest = []
    · subst short
      cases more
      cases arrived
      exact ends.walks (dirs _ dir) name rfl fun _ => rfl
    · obtain ⟨mode, isDir⟩ := get?_of_isDirectoryAt (dirs _ (more.isDirectoryAt short))
      exact .on (dirs _ dir) name isDir (by simp) (ih arrived ends.tail)

theorem Walks.frame_followed (dirs : KeepsDirectories fs fs') (h : Walks fs goal here segments w)
    (followed : w = .followed target link rest) (kept : fs'.get? link = fs.get? link) :
    Walks fs' goal here segments (.followed target link rest) := by
  induction h with
  | done => simp at followed
  | idle dir none _ ih => exact .idle (dirs _ dir) none (ih followed)
  | up dir _ ih => exact .up (dirs _ dir) (ih followed)
  | vacant => simp at followed
  | entry => simp at followed
  | follow dir name found asked =>
    cases followed
    exact .follow (dirs _ dir) name (kept.trans found) asked
  | @on here segment rest x w dir name found notLink more ih =>
    have some : rest ≠ [] := by
      rintro rfl
      cases more
      simp at followed
    obtain ⟨mode, isDir⟩ := get?_of_isDirectoryAt (dirs _ (more.isDirectoryAt some))
    exact .on (dirs _ dir) name isDir (by simp) (ih followed)

private theorem getLast?_cons_eq {a b : List Text} (h : a ≠ [] ∧ a.getLast? = b.getLast?)
    (s : Text) : a ≠ [] ∧ a.getLast? = (s :: b).getLast? := by
  refine ⟨h.1, ?_⟩
  rw [List.getLast?_cons, ← h.2, List.getLast?_eq_some_getLast h.1]
  rfl

/-- Behind a link that is followed for an entry the path goes on to its last segment. -/
private theorem Walks.getLast?_followed (h : Walks fs goal here segments w)
    (followed : w = .followed target link rest) (asked : goal = .entry) :
    rest ≠ [] ∧ rest.getLast? = segments.getLast? := by
  induction h with
  | done => simp at followed
  | idle _ _ _ ih => exact getLast?_cons_eq (ih followed) _
  | up _ _ ih => exact getLast?_cons_eq (ih followed) _
  | vacant => simp at followed
  | entry => simp at followed
  | follow _ _ _ notLast =>
    cases followed
    exact getLast?_cons_eq ⟨fun none => notLast none asked, rfl⟩ _
  | on _ _ _ _ _ ih => exact getLast?_cons_eq (ih followed) _

/-- A resolution is the same where its directories and its links are kept and its end
does not divert it. -/
theorem Resolves.frame (dirs : KeepsDirectories fs fs')
    (h : Resolves fs goal links here segments followed place)
    (kept : ∀ link ∈ followed, fs'.get? link = fs.get? link)
    (ends : Ends fs fs' goal segments place) :
    Resolves fs' goal links here segments followed place := by
  induction h with
  | arrive walks => exact .arrive (walks.frame_arrived dirs rfl ends)
  | follow walks _ ih =>
    refine .follow (walks.frame_followed dirs rfl (kept _ List.mem_cons_self))
      (ih (fun link mem => kept link (List.mem_cons_of_mem _ mem)) (ends.change fun asked last => ?_))
    obtain ⟨some, same⟩ := walks.getLast?_followed rfl asked
    rw [List.getLast?_append, List.getLast?_eq_some_getLast some, Option.some_or,
      ← List.getLast?_eq_some_getLast some, same] at last
    exact last

theorem Walks.isLink (h : Walks fs goal here segments w) (followed : w = .followed target link rest) :
    fs.get? link = some (.link target) := by
  induction h with
  | done => simp at followed
  | idle _ _ _ ih => exact ih followed
  | up _ _ ih => exact ih followed
  | vacant => simp at followed
  | entry => simp at followed
  | follow _ _ found _ =>
    cases followed
    exact found
  | on _ _ _ _ _ ih => exact ih followed

theorem Resolves.isLink (h : Resolves fs goal links here segments followed place)
    (mem : link ∈ followed) : ∃ target, fs.get? link = some (.link target) := by
  induction h with
  | arrive => simp at mem
  | follow walks _ ih =>
    rcases List.mem_cons.1 mem with rfl | mem
    · exact ⟨_, walks.isLink rfl⟩
    · exact ih mem

/-! ## A link that becomes a file -/

private theorem walk_file (found : fs.get? here = some (.file content mode)) (some : rest ≠ []) :
    walk fs goal here rest = .blocked .notADirectory := by
  cases rest with
  | nil => exact absurd rfl some
  | cons s rest => rw [walk, found]

private theorem Walks.broken (h : Walks fs goal here segments w)
    (followed : w = .followed target link rest) (dirs : KeepsDirectories fs fs')
    (broken : fs'.get? link = some (.file content mode)) :
    walk fs' goal here segments = if rest = [] then .arrived link else .blocked .notADirectory := by
  induction h with
  | done => simp at followed
  | idle dir none _ ih => rw [walk_idle (dirs _ dir) none, ih followed]
  | up dir _ ih => rw [walk_up (dirs _ dir), ih followed]
  | vacant => simp at followed
  | entry => simp at followed
  | follow dir name found asked =>
    cases followed
    rw [walk_on (dirs _ dir) name broken (by simp)]
    split
    · rename_i none
      rw [none, walk_nil]
    · rename_i some
      exact walk_file broken some
  | @on here segment rest x w dir name found notLink more ih =>
    have some : rest ≠ [] := by
      rintro rfl
      cases more
      simp at followed
    obtain ⟨mode, isDir⟩ := get?_of_isDirectoryAt (dirs _ (more.isDirectoryAt some))
    rw [walk_on (dirs _ dir) name isDir (by simp), ih followed]

/-- A link that is followed is followed for whatever the path is resolved. -/
private theorem Walks.node_of_followed (h : Walks fs goal here segments (.followed target link rest)) :
    Walks fs .node here segments (.followed target link rest) := by
  cases goal with
  | node => exact h
  | entry => exact h.node_of_entry (by simp)
  | file => exact h.node_of_file

/-- A path that has followed a link which now is a file leads to the file, if nothing is
left to go there, or is refused. -/
theorem Resolves.broken {goal' : Goal} (h : Resolves fs goal links here segments followed place)
    (mem : link ∈ followed) (dirs : KeepsDirectories fs fs')
    (kept : ∀ q target, q ≠ link → fs.get? q = some (.link target) →
      fs'.get? q = some (.link target))
    (broken : fs'.get? link = some (.file content mode)) (asked : goal' = goal ∨ goal' = .node) :
    (resolve fs' goal' links here segments = .ok link ∧ goal ≠ .entry)
      ∨ resolve fs' goal' links here segments = .error .notADirectory := by
  induction h with
  | arrive => simp at mem
  | @follow links here link' place segments rest target followed walks more ih =>
    have onward : Walks fs goal' here segments (.followed target link' rest) := by
      rcases asked with rfl | rfl
      · exact walks
      · exact walks.node_of_followed
    by_cases this : link' = link
    · subst this
      have walked := onward.broken rfl dirs broken
      split at walked
      · rename_i none
        refine .inl ⟨resolve_of_walk_arrived walked, fun asked => ?_⟩
        exact (walks.getLast?_followed rfl asked).1 none
      · right
        rw [resolve, walked]
    · have isLink := walks.isLink rfl
      have same := onward.frame_followed dirs rfl ((kept _ _ this isLink).trans isLink.symm)
      rw [resolve_of_walk_followed (walk_eq_of_walks same)]
      exact ih (List.mem_of_ne_of_mem (Ne.symm this) mem)

/-! ## Refusals across additions -/

/-- Every node of `fs` is in `fs'`. -/
def Kept (fs fs' : FileSystem) : Prop := ∀ q x, fs.get? q = some x → fs'.get? q = some x

theorem Kept.keepsDirectories (kept : Kept fs fs') : KeepsDirectories fs fs' := by
  intro q dir
  obtain ⟨mode, found⟩ := get?_of_isDirectoryAt dir
  exact isDirectoryAt_of_get? (kept q _ found)

private theorem walk_blocked_of_kept {why : IoError} (kept : Kept fs fs')
    (h : walk fs goal here segments = .blocked why) (found : why ≠ .notFound) :
    walk fs' goal here segments = .blocked why := by
  fun_induction walk fs goal here segments with
  | case1 => simp at h
  | case2 => simp_all
  | case3 here segment rest content mode node =>
    rw [walk, kept _ _ node]
    exact h
  | case4 here segment rest target node =>
    rw [walk, kept _ _ node]
    exact h
  | case5 here segment rest mode node none ih =>
    rw [walk_idle (isDirectoryAt_of_get? (kept _ _ node)) none, ih h]
  | case6 here rest mode node notIdle ih =>
    rw [walk_up (isDirectoryAt_of_get? (kept _ _ node)), ih h]
  | case7 here segment rest mode node notIdle notUp slashed =>
    rw [walk, kept _ _ node]
    simpa [notIdle, notUp, slashed] using h
  | case8 here segment rest mode node notIdle notUp notSlashed long =>
    rw [walk, kept _ _ node]
    simpa [notIdle, notUp, notSlashed, long] using h
  | case9 => simp at h
  | case10 => simp_all
  | case11 => simp at h
  | case12 => simp at h
  | case13 here segment rest mode node notIdle notUp notSlashed fits next x notLink hx ih =>
    have name : IsName goal segment rest :=
      ⟨by simpa using notIdle, notUp, by simpa using notSlashed, by simpa using fits⟩
    rw [walk_on (isDirectoryAt_of_get? (kept _ _ node)) name (kept _ _ hx)
      fun target => notLink target]
    exact ih h

/-- A refusal for another reason than that something is missing stands whatever is added. -/
theorem resolve_error_of_kept {why : IoError} (kept : Kept fs fs')
    (h : resolve fs goal links here segments = .error why) (found : why ≠ .notFound) :
    resolve fs' goal links here segments = .error why := by
  induction links generalizing here segments with
  | zero =>
    rw [resolve] at h ⊢
    split at h
    · simp at h
    · rename_i walked
      obtain rfl := Except.error.inj h
      rw [walk_blocked_of_kept kept walked found]
    · rename_i walked
      have walks := walks_of_walk walked (by simp)
      have same := walks.frame_followed kept.keepsDirectories rfl
        ((kept _ _ (walks.isLink rfl)).trans (walks.isLink rfl).symm)
      rw [walk_eq_of_walks same]
      exact h
  | succ links ih =>
    rw [resolve] at h
    split at h
    · simp at h
    · rename_i walked
      obtain rfl := Except.error.inj h
      rw [resolve, walk_blocked_of_kept kept walked found]
    · rename_i walked
      have walks := walks_of_walk walked (by simp)
      have same := walks.frame_followed kept.keepsDirectories rfl
        ((kept _ _ (walks.isLink rfl)).trans (walks.isLink rfl).symm)
      rw [resolve_of_walk_followed (walk_eq_of_walks same)]
      exact ih h

end FileSystem

end Scaffold
