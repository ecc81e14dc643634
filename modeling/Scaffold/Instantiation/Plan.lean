import Scaffold.Placeholder.Render
import Scaffold.Template.Basic
import Scaffold.Template.Name

/-!
# Plans

A plan says what an instantiation will write: for every entry its path below the
target and, for a file, its content, all rendered with the final values. Making a
plan does not look at the file system, so whatever is wrong with the values or
the names is found before anything is written.

Every rendered component is checked to be a single name. The stored parent path
is cut into components before it is rendered, so a value cannot add a step, and a
parent path that starts at the root or goes up is refused. `renderNames_ok_iff`,
`renderContent_of_file` and `renderContent_of_none` say what is rendered.
-/

namespace Scaffold

/-- An entry that is ready to be written. -/
structure PlannedEntry where
  path : Path
  kind : EntryKind
  mode : Mode
  content : Text
  deriving DecidableEq

namespace Plan

/-- Render one component of a path. -/
def renderComponent (values : Values) (template : Text) : Except Error Text :=
  match Placeholder.render values template with
  | .error e => .error e
  | .ok rendered =>
    if isPathComponent rendered then .ok rendered
    else .error (.invalidEntryName rendered template)

/-- Render the components of the parent path of `e`. -/
def renderParent (values : Values) (e : Entry) : List Path.Component → Except Error (List Text)
  | [] => .ok []
  | .here :: more => renderParent values e more
  | .name part :: more =>
    match renderComponent values part with
    | .error err => .error err
    | .ok first =>
      match renderParent values e more with
      | .error err => .error err
      | .ok rest => .ok (first :: rest)
  | _ :: _ => .error (.invalidEntryName e.parent e.path)

/-- The names that lead from the target to an entry, the outermost first. -/
def renderNames (values : Values) (e : Entry) : Except Error (List Text) :=
  match renderParent values e (Path.components e.parent) with
  | .error err => .error err
  | .ok parents =>
    match renderComponent values e.name with
    | .error err => .error err
    | .ok name => .ok (parents ++ [name])

/-- The content of an entry, which is empty for a directory. -/
def renderContent (values : Values) (e : Entry) : Except Error Text :=
  match e.kind, e.content with
  | .file, some content => Placeholder.renderLines values content
  | .file, none => .ok []
  | .directory, _ => .ok []

/-! ## What is rendered -/

section

variable {values : Values} {e : Entry} {parts : List Path.Component} {names : List Text}

theorem renderComponent_ok_iff {template rendered : Text} :
    renderComponent values template = .ok rendered
      ↔ Placeholder.render values template = .ok rendered ∧ isPathComponent rendered = true := by
  unfold renderComponent
  cases Placeholder.render values template with
  | error err => simp
  | ok name =>
    by_cases component : isPathComponent name = true
    · simp only [component, if_true]
      exact ⟨fun same => ⟨same, Except.ok.inj same ▸ component⟩, And.left⟩
    · simp only [component, Bool.false_eq_true, if_false]
      exact iff_of_false (by simp) fun ⟨same, whole⟩ => component (Except.ok.inj same ▸ whole)

/-- The names in a parent path are rendered one by one, and a dot is none of them. -/
theorem renderParent_ok_iff : renderParent values e parts = .ok names
    ↔ ∃ templates : List Text, parts.filter (· ≠ .here) = templates.map .name
      ∧ templates.map (renderComponent values) = names.map .ok := by
  induction parts generalizing names with
  | nil => simp [renderParent, eq_comm]
  | cons part more ih =>
    cases part with
    | root | up =>
      refine iff_of_false (by simp [renderParent]) ?_
      rintro ⟨templates, parts, -⟩
      obtain ⟨_, _, _, ⟨⟩, _⟩ := List.map_eq_cons_iff.1 parts.symm
    | here => simpa [renderParent] using ih
    | name part =>
      rw [renderParent, List.filter_cons_of_pos (by simp)]
      constructor
      · intro ok
        split at ok
        · simp at ok
        · rename_i first rendered
          split at ok
          · simp at ok
          · rename_i rest others
            obtain rfl := Except.ok.inj ok
            obtain ⟨templates, parts, same⟩ := ih.1 others
            exact ⟨part :: templates, by rw [parts, List.map_cons],
              by rw [List.map_cons, rendered, same, List.map_cons]⟩
      · rintro ⟨templates, parts, same⟩
        obtain ⟨_, templates, rfl, ⟨⟩, others⟩ := List.map_eq_cons_iff.1 parts.symm
        obtain ⟨first, rest, rfl, rendered, behind⟩ := List.map_eq_cons_iff.1 same.symm
        simp only [← rendered, ih.2 ⟨templates, others.symm, behind.symm⟩]

/-- Components are rendered one after the other, the last one at the end. -/
theorem map_concat_ok_iff {templates : List Text} {template : Text} :
    (templates ++ [template]).map (renderComponent values) = names.map .ok
      ↔ ∃ parents name, templates.map (renderComponent values) = parents.map .ok
        ∧ renderComponent values template = .ok name ∧ names = parents ++ [name] := by
  rw [List.map_append, eq_comm, List.map_eq_append_iff]
  constructor
  · rintro ⟨parents, last, rfl, outer, own⟩
    obtain ⟨name, rest, rfl, rendered, none⟩ := List.map_eq_cons_iff.1 own
    obtain rfl := List.map_eq_nil_iff.1 none
    exact ⟨parents, name, outer.symm, rendered.symm, rfl⟩
  · rintro ⟨parents, name, outer, rendered, rfl⟩
    exact ⟨parents, [name], rfl, outer.symm, by simp [rendered]⟩

/-- The names of an entry are the names in its parent path and its own, each rendered to a
component. -/
theorem renderNames_ok_iff : renderNames values e = .ok names
    ↔ ∃ parents : List Text, (Path.components e.parent).filter (· ≠ .here) = parents.map .name
      ∧ (parents ++ [e.name]).map (renderComponent values) = names.map .ok := by
  constructor
  · intro ok
    unfold renderNames at ok
    split at ok
    · simp at ok
    · rename_i above outer
      split at ok
      · simp at ok
      · rename_i name rendered
        obtain rfl := Except.ok.inj ok
        obtain ⟨parents, parts, same⟩ := renderParent_ok_iff.1 outer
        exact ⟨parents, parts, map_concat_ok_iff.2 ⟨above, name, same, rendered, rfl⟩⟩
  · rintro ⟨parents, parts, same⟩
    obtain ⟨above, name, outer, rendered, rfl⟩ := map_concat_ok_iff.1 same
    simp only [renderNames, renderParent_ok_iff.2 ⟨parents, parts, outer⟩, rendered]

/-- The content of a file is rendered line by line. -/
theorem renderContent_of_file {content : Text} (kind : e.kind = .file)
    (known : e.content = some content) :
    renderContent values e = Placeholder.renderLines values content := by
  simp only [renderContent, kind, known]

/-- Where there is no content, nothing is written. -/
theorem renderContent_of_none (none : e.kind = .file → e.content = none) :
    renderContent values e = .ok [] := by
  cases kind : e.kind with
  | file => simp only [renderContent, kind, none kind]
  | directory => simp only [renderContent, kind]

end

/-! ## The plan of a template -/

/-- Make an entry ready to be written below the target. -/
def ofEntry (values : Values) (target : Path) (e : Entry) : Except Error PlannedEntry :=
  match renderNames values e with
  | .error err => .error err
  | .ok names =>
    match renderContent values e with
    | .error err => .error err
    | .ok content => .ok ⟨names.foldl Path.join target, e.kind, e.mode, content⟩

/-- Make entries ready in order. -/
def ofEntries (values : Values) (target : Path) : List Entry → Except Error (List PlannedEntry)
  | [] => .ok []
  | e :: more =>
    match ofEntry values target e with
    | .error err => .error err
    | .ok first =>
      match ofEntries values target more with
      | .error err => .error err
      | .ok rest => .ok (first :: rest)

end Plan

end Scaffold
