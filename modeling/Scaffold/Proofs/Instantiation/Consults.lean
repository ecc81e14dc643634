import Scaffold.Instantiation.Basic
import Scaffold.Proofs.Template.Defaults

/-!
# The strings that a plan consults

To plan an entry, its name, the names on the way to it and the lines of its content are
rendered, each for itself. So a plan is the same for any values with which these strings
are rendered alike, and if it is refused, then for one of these strings or because a name
that was rendered is not one.
-/

namespace Scaffold

open Placeholder

variable {values values' : Values} {e : Entry} {entries : List Entry} {target : Path} {s : Text}
  {err : Error}

/-- The string is rendered to plan the entry: its name, a name on the way to it, or a line of
its content. -/
def Entry.Consults (e : Entry) (s : Text) : Prop :=
  s ∈ e.texts ∨ .name s ∈ Path.components e.parent

theorem Entry.consults_name (e : Entry) : e.Consults e.name := .inl List.mem_cons_self

theorem Entry.mem_texts_of_line {content line : Text} (known : e.content = some content)
    (mem : line ∈ Text.split '\n' content) : line ∈ e.texts := by
  rw [texts, known]
  exact List.mem_cons_of_mem _ mem

namespace Plan

variable {parts : List Path.Component}

/-! ## Values that make no difference -/

theorem renderComponent_congr (same : render values s = render values' s) :
    renderComponent values s = renderComponent values' s := by
  simp only [renderComponent, same]

theorem renderParent_congr (same : ∀ s, .name s ∈ parts → render values s = render values' s) :
    renderParent values e parts = renderParent values' e parts := by
  induction parts with
  | nil => rfl
  | cons part more ih =>
    have others := ih fun s mem => same s (List.mem_cons_of_mem _ mem)
    cases part with
    | root | up => rfl
    | here => exact others
    | name part =>
      have first := renderComponent_congr (same part List.mem_cons_self)
      simp only [renderParent, first, others]

theorem renderContent_congr (same : ∀ s ∈ e.texts, render values s = render values' s) :
    renderContent values e = renderContent values' e := by
  unfold renderContent
  split
  · rename_i content _ known
    exact renderLines_congr fun line mem => same line (Entry.mem_texts_of_line known mem)
  · rfl
  · rfl

/-- An entry is planned alike if all that is read is rendered alike. -/
theorem ofEntry_congr (same : ∀ s, e.Consults s → render values s = render values' s) :
    ofEntry values target e = ofEntry values' target e := by
  have parents := renderParent_congr (e := e) fun s mem => same s (.inr mem)
  have name := renderComponent_congr (same e.name e.consults_name)
  have content := renderContent_congr fun s mem => same s (.inl mem)
  simp only [ofEntry, renderNames, parents, name, content]

theorem ofEntries_congr
    (same : ∀ e ∈ entries, ∀ s, e.Consults s → render values s = render values' s) :
    ofEntries values target entries = ofEntries values' target entries := by
  induction entries with
  | nil => rfl
  | cons e more ih =>
    have first : ofEntry values target e = ofEntry values' target e :=
      ofEntry_congr (same e List.mem_cons_self)
    have others := ih fun e mem => same e (List.mem_cons_of_mem _ mem)
    simp only [ofEntries, first, others]

/-! ## Plans that are refused -/

theorem renderComponent_error (h : renderComponent values s = .error err) :
    render values s = .error err ∨ ∃ rendered, err = .invalidEntryName rendered s := by
  unfold renderComponent at h
  split at h
  · rename_i rendered
    exact .inl (rendered.trans h)
  · split at h
    · simp at h
    · exact .inr ⟨_, (Except.error.inj h).symm⟩

theorem renderParent_error (h : renderParent values e parts = .error err) :
    (∃ s, .name s ∈ parts ∧ render values s = .error err)
      ∨ ∃ rendered template, err = .invalidEntryName rendered template := by
  induction parts with
  | nil => simp [renderParent] at h
  | cons part more ih =>
    have later (h : renderParent values e more = .error err) :
        (∃ s, .name s ∈ part :: more ∧ render values s = .error err)
          ∨ ∃ rendered template, err = .invalidEntryName rendered template := by
      rcases ih h with ⟨s, mem, failed⟩ | invalid
      · exact .inl ⟨s, List.mem_cons_of_mem _ mem, failed⟩
      · exact .inr invalid
    cases part with
    | root | up => exact .inr ⟨_, _, (Except.error.inj h).symm⟩
    | here => exact later h
    | name part =>
      rw [renderParent] at h
      split at h
      · rename_i first
        obtain rfl := Except.error.inj h
        rcases renderComponent_error first with failed | ⟨rendered, eq⟩
        · exact .inl ⟨part, List.mem_cons_self, failed⟩
        · exact .inr ⟨rendered, part, eq⟩
      · split at h
        · rename_i others
          exact later (others.trans h)
        · simp at h

theorem renderContent_error (h : renderContent values e = .error err) :
    ∃ s ∈ e.texts, render values s = .error err := by
  unfold renderContent at h
  split at h
  · rename_i content _ known
    obtain ⟨line, mem, failed⟩ := renderLines_error h
    exact ⟨line, Entry.mem_texts_of_line known mem, failed⟩
  · simp at h
  · simp at h

/-- An entry is refused for a string that is read, or for a name that is none. -/
theorem ofEntry_error (h : ofEntry values target e = .error err) :
    (∃ s, e.Consults s ∧ render values s = .error err)
      ∨ ∃ rendered template, err = .invalidEntryName rendered template := by
  unfold ofEntry at h
  split at h
  · rename_i names
    obtain rfl := Except.error.inj h
    unfold renderNames at names
    split at names
    · rename_i above
      exact (renderParent_error (above.trans names)).imp_left
        fun ⟨s, mem, failed⟩ => ⟨s, .inr mem, failed⟩
    · split at names
      · rename_i last
        obtain rfl := Except.error.inj names
        exact (renderComponent_error last).imp (fun failed => ⟨e.name, e.consults_name, failed⟩)
          fun ⟨rendered, eq⟩ => ⟨rendered, e.name, eq⟩
      · simp at names
  · split at h
    · rename_i content
      obtain rfl := Except.error.inj h
      obtain ⟨s, mem, failed⟩ := renderContent_error content
      exact .inl ⟨s, .inl mem, failed⟩
    · simp at h

theorem ofEntries_error (h : ofEntries values target entries = .error err) :
    (∃ e ∈ entries, ∃ s, e.Consults s ∧ render values s = .error err)
      ∨ ∃ rendered template, err = .invalidEntryName rendered template := by
  induction entries with
  | nil => simp [ofEntries] at h
  | cons e more ih =>
    rw [ofEntries] at h
    split at h
    · rename_i first
      obtain rfl := Except.error.inj h
      exact (ofEntry_error first).imp_left fun failed => ⟨e, List.mem_cons_self, failed⟩
    · split at h
      · rename_i others
        exact (ih (others.trans h)).imp_left
          fun ⟨e, mem, failed⟩ => ⟨e, List.mem_cons_of_mem _ mem, failed⟩
      · simp at h

end Plan

end Scaffold
