import Scaffold.FileSystem.Resolve

/-!
# Free places

A path may lead to a place where nothing stands. Such a place always is in a
directory and has a proper name, so any node can be put there. Hence an action
that puts a node at the end of a path never finds it refused.
-/

namespace Scaffold

namespace FileSystem

/-- Whether a segment of a path holds no character that a name cannot hold. -/
def IsPlain (segment : Text) : Prop := '/' ∉ segment ∧ '\x00' ∉ segment

theorem isNodeName_of_isPlain {segment : Text} (plain : IsPlain segment)
    (idle : Path.isIdle segment = false) (up : segment ≠ ['.', '.'])
    (fits : Text.fits maxNameLength segment = true) : isNodeName (.text segment) = true := by
  simp only [Path.isIdle, Bool.or_eq_false_iff, decide_eq_false_iff_not] at idle
  have chars : ∀ c ∈ segment, ¬c = '/' ∧ ¬c = '\x00' := fun c hc =>
    ⟨fun h => plain.1 (h ▸ hc), fun h => plain.2 (h ▸ hc)⟩
  simpa [isNodeName, idle.1, idle.2, up, fits] using chars

/-- The segments of a path without NUL are plain. -/
theorem isPlain_of_mem_segments {path : Path} {segment : Text} (h : '\x00' ∉ path)
    (hmem : segment ∈ Path.segments path) : IsPlain segment :=
  ⟨Text.not_mem_of_mem_split hmem, fun hc => h (Text.mem_of_mem_split hmem hc)⟩

/-- A place is vacant when nothing stands there although something could. -/
def IsVacant (fs : FileSystem) (place : Place) : Prop :=
  ∃ name parent, place = name :: parent ∧ fs.isDirectoryAt parent = true
    ∧ isNodeName name = true ∧ fs.get? place = none

theorem get?_tail_ne_none {fs : FileSystem} {here : Place} (h : fs.get? here ≠ none) :
    fs.get? here.tail ≠ none := by
  cases here with
  | nil => simpa using h
  | cons name parent =>
    obtain ⟨x, hx⟩ := Option.ne_none_iff_exists'.1 h
    have hdir := isDirectoryAt_of_get?_cons hx
    simp only [isDirectoryAt, Option.any_eq_true] at hdir
    obtain ⟨y, hy, _⟩ := hdir
    simp [hy]

/-- Where a walk arrives, there is a node or a vacant place. -/
theorem isVacant_of_walk {fs : FileSystem} {goal : Goal} {here place : Place}
    {segments : List Text} (h : walk fs goal here segments = .arrived place)
    (start : segments = [] → fs.get? here ≠ none) (plain : ∀ s ∈ segments, IsPlain s)
    (free : fs.get? place = none) : IsVacant fs place := by
  fun_induction walk fs goal here segments
  case case1 => exact absurd (Walk.arrived.inj h ▸ free) (start rfl)
  -- the walk goes on from where it is, from above, or behind a name
  case case5 there _ ih =>
    exact ih h (by simp [there]) fun s mem => plain s (List.mem_cons_of_mem _ mem)
  case case6 there _ ih =>
    exact ih h (fun _ => get?_tail_ne_none (by simp [there]))
      fun s mem => plain s (List.mem_cons_of_mem _ mem)
  case case13 met ih =>
    exact ih h (by simp [met]) fun s mem => plain s (List.mem_cons_of_mem _ mem)
  -- the walk ends at a name, which is free unless it is a link's
  case case9 here segment rest mode there idle up _ fits _ _ _ =>
    refine ⟨.text segment, here, (Walk.arrived.inj h).symm, ?_, ?_, free⟩
    · simp [isDirectoryAt, there, Node.isDirectory]
    · exact isNodeName_of_isPlain (plain segment List.mem_cons_self) (by simpa using idle) up
        (by simpa using fits)
  case case11 met _ =>
    rw [← Walk.arrived.inj h, met] at free
    simp at free
  all_goals simp at h

/-- A walk stops before a proper link, and what is left to go is left over from
the way. -/
theorem proper_of_walk_followed {fs : FileSystem} {goal : Goal} {here link : Place}
    {segments rest : List Text} {target : Path}
    (h : walk fs goal here segments = .followed target link rest) :
    isLinkTarget target = true ∧ ∀ s ∈ rest, s ∈ segments := by
  fun_induction walk fs goal here segments
  -- the walk goes on from where it is, from above, or behind a name
  case case5 ih | case6 ih | case13 ih =>
    obtain ⟨proper, behind⟩ := ih h
    exact ⟨proper, fun s mem => List.mem_cons_of_mem _ (behind s mem)⟩
  -- the walk stops before a link
  case case12 met _ =>
    simp only [Walk.followed.injEq] at h
    obtain ⟨rfl, _, rfl⟩ := h
    have proper := fs.nodes_proper _ (mem_of_get? met)
    simp only [isProper, Bool.and_eq_true] at proper
    exact ⟨proper.2, fun s mem => List.mem_cons_of_mem _ mem⟩
  all_goals simp at h

/-- Where a resolution ends, there is a node or a vacant place. -/
theorem isVacant_of_resolve {fs : FileSystem} {goal : Goal} {links : Nat} {here place : Place}
    {segments : List Text} (h : resolve fs goal links here segments = .ok place)
    (start : segments = [] → fs.get? here ≠ none) (plain : ∀ s ∈ segments, IsPlain s)
    (free : fs.get? place = none) : IsVacant fs place := by
  fun_induction resolve fs goal links here segments with
  | case1 links here segments arrived ends =>
    obtain rfl := Except.ok.inj h
    exact isVacant_of_walk ends start plain free
  | case2 => simp at h
  | case3 => simp at h
  | case4 here segments target link rest ends links ih =>
    obtain ⟨proper, behind⟩ := proper_of_walk_followed ends
    refine ih h (fun hnil => ?_) (fun s hs => ?_)
    · simp [Path.segments, Text.split_ne_nil] at hnil
    · rcases List.mem_append.1 hs with hs | hs
      · refine isPlain_of_mem_segments (fun hnul => ?_) hs
        simp only [isLinkTarget, Bool.and_eq_true, List.all_eq_true, decide_eq_true_eq] at proper
        exact proper.1.2 _ hnul rfl
      · exact plain s (behind s hs)

/-- A path leads to a node or to a vacant place. -/
theorem isVacant_of_locate {fs : FileSystem} {goal : Goal} {path : Path} {place : Place}
    (h : locate fs goal path = .ok place) (free : fs.get? place = none) : IsVacant fs place := by
  unfold locate at h
  split at h
  · simp at h
  · rename_i hpath
    have proper := isLinkTarget_of_refusal? hpath
    simp only [isLinkTarget, Bool.and_eq_true, List.all_eq_true, decide_eq_true_eq] at proper
    refine isVacant_of_resolve h (fun hnil => ?_) (fun s hs => ?_) free
    · exact absurd hnil (Text.split_ne_nil _ _)
    · exact isPlain_of_mem_segments (fun hnul => proper.1.2 _ hnul rfl) hs

/-- Files and directories can be put at a vacant place, and proper links too. -/
theorem IsVacant.admits {fs : FileSystem} {place : Place} {x : Node} (h : IsVacant fs place)
    (link : ∀ target, x = .link target → isLinkTarget target = true) :
    fs.admits place x = true := by
  obtain ⟨name, parent, rfl, hdir, hname, hfree⟩ := h
  have empty : fs.childNames (name :: parent) = [] := by
    apply List.eq_nil_iff_forall_not_mem.2
    intro child hchild
    obtain ⟨y, hy⟩ := mem_childNames.1 hchild
    have := isDirectoryAt_of_get?_cons hy
    simp [isDirectoryAt, hfree] at this
  have proper : isProper (name :: parent, x) = true := by
    cases x with
    | file content mode => simp [isProper, hname]
    | directory mode => simp [isProper, hname]
    | link target => simp [isProper, hname, link target rfl]
  simp [FileSystem.admits, hdir, empty, proper]

end FileSystem

end Scaffold
