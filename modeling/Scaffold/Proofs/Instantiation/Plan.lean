import Scaffold.Instantiation.Plan
import Scaffold.Proofs.Path.Steps

/-!
# What a plan says

A plan has one part for each entry of the template, in order. The path of a part is the
target with the rendered names of the entry joined to it, each of which is a component
and so a step of the path.
-/

namespace Scaffold

/-- What can be the name of a node is a step of a path. -/
structure IsStep (t : Text) : Prop where
  word : Path.IsWord t
  notIdle : Path.isIdle t = false
  notUp : t ≠ ['.', '.']
  noNul : '\x00' ∉ t

theorem isStep_of_isPathComponent {t : Text} (h : isPathComponent t = true) : IsStep t := by
  simp only [isPathComponent, Bool.and_eq_true, decide_eq_true_eq, List.all_eq_true] at h
  obtain ⟨⟨⟨nonempty, notHere⟩, notUp⟩, chars⟩ := h
  refine ⟨⟨nonempty, fun mem => ?_⟩, by simp [Path.isIdle, nonempty, notHere], notUp, fun mem => ?_⟩
  · simpa using chars _ mem
  · simpa using chars _ mem

/-- Names that are joined to a path are its last components. -/
theorem components_foldl_join {names : List Text} (steps : ∀ n ∈ names, IsStep n) (p : Path) :
    Path.components (names.foldl Path.join p) = Path.components p ++ names.map .name := by
  induction names generalizing p with
  | nil => simp
  | cons n names ih =>
    have step := steps n List.mem_cons_self
    rw [List.foldl_cons, ih (fun m mem => steps m (List.mem_cons_of_mem _ mem)),
      Path.components_join p step.word step.notIdle step.notUp, List.append_assoc]
    rfl

namespace Plan

variable {values : Values} {target : Path} {e : Entry} {p : PlannedEntry} {names : List Text}

/-- The rendered names of an entry are components, at least one. -/
theorem isPathComponent_of_renderNames (h : renderNames values e = .ok names) :
    names ≠ [] ∧ ∀ n ∈ names, isPathComponent n = true := by
  obtain ⟨parents, _, same⟩ := renderNames_ok_iff.1 h
  refine ⟨fun none => by simp [none] at same, fun n mem => ?_⟩
  have made : .ok n ∈ (parents ++ [e.name]).map (renderComponent values) :=
    same ▸ List.mem_map_of_mem mem
  obtain ⟨template, _, rendered⟩ := List.mem_map.1 made
  exact (renderComponent_ok_iff.1 rendered).2

/-- The rendered names of an entry are steps, at least one. -/
theorem isStep_of_renderNames (h : renderNames values e = .ok names) :
    names ≠ [] ∧ ∀ n ∈ names, IsStep n := by
  obtain ⟨some, components⟩ := isPathComponent_of_renderNames h
  exact ⟨some, fun n mem => isStep_of_isPathComponent (components n mem)⟩

theorem ofEntry_ok (h : ofEntry values target e = .ok p) :
    ∃ names, renderNames values e = .ok names ∧ renderContent values e = .ok p.content
      ∧ p.path = names.foldl Path.join target ∧ p.kind = e.kind ∧ p.mode = e.mode := by
  unfold ofEntry at h
  split at h
  · simp at h
  · rename_i names rendered
    split at h
    · simp at h
    · rename_i content written
      obtain rfl := Except.ok.inj h
      exact ⟨names, rendered, written, rfl, rfl, rfl⟩

/-- A plan is made entry by entry. -/
theorem ofEntries_ok_iff {entries : List Entry} {plan : List PlannedEntry} :
    ofEntries values target entries = .ok plan
      ↔ entries.map (ofEntry values target) = plan.map .ok := by
  induction entries generalizing plan with
  | nil => cases plan <;> simp [ofEntries]
  | cons e more ih =>
    rw [ofEntries, List.map_cons]
    cases made : ofEntry values target e with
    | error err => cases plan <;> simp
    | ok first =>
      cases others : ofEntries values target more with
      | error err =>
        cases plan with
        | nil => simp
        | cons p rest =>
          have refused := mt (@ih rest).2 (by simp [others])
          simp [refused]
      | ok made =>
        cases plan with
        | nil => simp
        | cons p rest =>
          have same := (@ih rest).symm
          rw [others, Except.ok.injEq] at same
          simp [same]

/-- The plan of some entries, the one that is asked for in their midst. -/
theorem ofEntries_split {before after : List Entry} {plan : List PlannedEntry}
    (h : ofEntries values target (before ++ e :: after) = .ok plan) :
    ∃ front p back, plan = front ++ p :: back ∧ ofEntries values target before = .ok front
      ∧ ofEntry values target e = .ok p ∧ ofEntries values target after = .ok back := by
  have parts := ofEntries_ok_iff.1 h
  rw [List.map_append, List.map_cons] at parts
  obtain ⟨front, rest, rfl, first, others⟩ := List.map_eq_append_iff.1 parts.symm
  obtain ⟨p, back, rfl, this, last⟩ := List.map_eq_cons_iff.1 others
  exact ⟨front, p, back, rfl, ofEntries_ok_iff.2 first.symm, this.symm, ofEntries_ok_iff.2 last.symm⟩

theorem exists_entry {entries : List Entry} {plan : List PlannedEntry}
    (h : ofEntries values target entries = .ok plan) (mem : p ∈ plan) :
    ∃ e ∈ entries, ofEntry values target e = .ok p := by
  have found : .ok p ∈ entries.map (ofEntry values target) := by
    rw [ofEntries_ok_iff.1 h]
    exact List.mem_map_of_mem mem
  exact List.mem_map.1 found

theorem exists_part {entries : List Entry} {plan : List PlannedEntry}
    (h : ofEntries values target entries = .ok plan) (mem : e ∈ entries) :
    ∃ p ∈ plan, ofEntry values target e = .ok p := by
  have found : ofEntry values target e ∈ plan.map .ok := by
    rw [← ofEntries_ok_iff.1 h]
    exact List.mem_map_of_mem mem
  obtain ⟨p, mem, made⟩ := List.mem_map.1 found
  exact ⟨p, mem, made.symm⟩

end Plan

end Scaffold
