import Scaffold.Placeholder.Render
import Scaffold.Proofs.Argument.Resolve

/-!
# Texts that are rendered

A text is rendered piece by piece, and only the values of its own tokens are looked at. It
is rendered if each of its tokens has a value.
-/

namespace Scaffold

namespace Placeholder

variable {a : Argument} {t : Text} {values values' : Values} {ps qs before after : List Piece}
  {e : Error}

theorem mem_filterMap_argument?_iff : a ∈ ps.filterMap Piece.argument? ↔ .token a ∈ ps := by
  rw [List.mem_filterMap]
  constructor
  · rintro ⟨piece, mem, known⟩
    cases piece with
    | literal c => simp [Piece.argument?] at known
    | token b => exact Option.some.inj known ▸ mem
  · exact fun mem => ⟨.token a, mem, rfl⟩

theorem mem_arguments_iff : a ∈ arguments t ↔ .token a ∈ pieces t :=
  mem_filterMap_argument?_iff

/-- The pieces in front are rendered first, and those behind only if that succeeds. -/
theorem renderPieces_append_eq : renderPieces values (ps ++ qs) = (do
    let front ← renderPieces values ps
    let back ← renderPieces values qs
    return front ++ back) := by
  induction ps with
  | nil => cases last : renderPieces values qs <;> exact last
  | cons piece ps ih =>
    rw [List.cons_append, renderPieces, renderPieces, ih]
    cases renderPiece values piece with
    | error e => rfl
    | ok v =>
      cases renderPieces values ps with
      | error e => rfl
      | ok front =>
        cases renderPieces values qs with
        | error e => rfl
        | ok back => exact congrArg Except.ok (List.append_assoc v front back).symm

theorem renderPieces_append {front back : Text} (first : renderPieces values ps = .ok front)
    (last : renderPieces values qs = .ok back) :
    renderPieces values (ps ++ qs) = .ok (front ++ back) := by
  rw [renderPieces_append_eq, first, last]
  rfl

/-- The piece with `v a` in the place of a token `a`. -/
def Piece.fill (v : Argument → Text) : Piece → Text
  | .literal c => [c]
  | .token a => v a

/-- If every token has a value, its value is put in its place. -/
theorem renderPieces_of_valueOf {v : Argument → Text}
    (given : ∀ a, .token a ∈ ps → values.valueOf a = .ok (v a)) :
    renderPieces values ps = .ok (ps.flatMap (Piece.fill v)) := by
  induction ps with
  | nil => rfl
  | cons piece ps ih =>
    have first : renderPiece values piece = .ok (piece.fill v) := by
      cases piece with
      | literal c => rfl
      | token a => exact given a List.mem_cons_self
    rw [renderPieces, first, ih fun a mem => given a (List.mem_cons_of_mem _ mem)]
    rfl

/-- A token stands for its value wherever it stands in a text. -/
theorem render_of_token {front back v : Text} (cut : pieces t = before ++ .token a :: after)
    (first : renderPieces values before = .ok front) (value : values.valueOf a = .ok v)
    (last : renderPieces values after = .ok back) :
    render values t = .ok (front ++ v ++ back) := by
  have behind : renderPieces values (.token a :: after) = .ok (v ++ back) := by
    simp only [renderPieces, renderPiece, value, last]
  rw [render, cut, renderPieces_append first behind, List.append_assoc]

/-- Pieces fail to render only at a token without a value. -/
theorem renderPieces_error (h : renderPieces values ps = .error e) :
    ∃ a, .token a ∈ ps ∧ values.lacks a = true ∧ e = .missingArgument a.name := by
  induction ps with
  | nil => simp at h
  | cons piece ps ih =>
    rw [renderPieces] at h
    split at h
    · rename_i first
      obtain rfl := Except.error.inj h
      cases piece with
      | literal c => simp [renderPiece] at first
      | token a => exact ⟨a, List.mem_cons_self, Values.valueOf_error_iff.1 first⟩
    · split at h
      · rename_i others
        obtain ⟨a, mem, missing⟩ := ih (others.trans h)
        exact ⟨a, List.mem_cons_of_mem _ mem, missing⟩
      · simp at h

theorem exists_renderPieces (given : ∀ a, .token a ∈ ps → values.lacks a = false) :
    ∃ r, renderPieces values ps = .ok r := by
  cases done : renderPieces values ps with
  | ok r => exact ⟨r, rfl⟩
  | error e =>
    obtain ⟨a, mem, lacking, _⟩ := renderPieces_error done
    simp [given a mem] at lacking

/-- If all of its tokens have values, a text is rendered around each of them. -/
theorem exists_render_around {v : Text} (cut : pieces t = before ++ .token a :: after)
    (given : ∀ b ∈ arguments t, values.lacks b = false) (value : values.valueOf a = .ok v) :
    ∃ front back, renderPieces values before = .ok front ∧ renderPieces values after = .ok back
      ∧ render values t = .ok (front ++ v ++ back) := by
  have tokens : ∀ b, .token b ∈ before ++ .token a :: after → values.lacks b = false :=
    fun b mem => given b (mem_arguments_iff.2 (cut ▸ mem))
  obtain ⟨front, first⟩ := exists_renderPieces fun b mem => tokens b (List.mem_append_left _ mem)
  obtain ⟨back, last⟩ := exists_renderPieces fun b mem =>
    tokens b (List.mem_append_right _ (List.mem_cons_of_mem _ mem))
  exact ⟨front, back, first, last, render_of_token cut first value last⟩

/-- If all of its tokens have values, a text is rendered. -/
theorem exists_render (given : ∀ a ∈ arguments t, values.lacks a = false) :
    ∃ r, render values t = .ok r :=
  exists_renderPieces fun a mem => given a (mem_arguments_iff.2 mem)

private theorem renderPieces_congr
    (same : ∀ a, .token a ∈ ps → values.get? a.name = values'.get? a.name) :
    renderPieces values ps = renderPieces values' ps := by
  induction ps with
  | nil => rfl
  | cons piece ps ih =>
    have others := ih fun a mem => same a (List.mem_cons_of_mem _ mem)
    have first : renderPiece values piece = renderPiece values' piece := by
      cases piece with
      | literal c => rfl
      | token a => exact Values.valueOf_congr (same a List.mem_cons_self)
    simp only [renderPieces, first, others]

/-- Only the values of its own tokens count for a text. -/
theorem render_congr (same : ∀ a ∈ arguments t, values.get? a.name = values'.get? a.name) :
    render values t = render values' t :=
  renderPieces_congr fun a mem => same a (mem_arguments_iff.2 mem)

/-! ## Lines -/

variable {lines : List Text}

private theorem mapM_render_congr
    (same : ∀ line ∈ lines, render values line = render values' line) :
    lines.mapM (render values) = lines.mapM (render values') := by
  induction lines with
  | nil => rfl
  | cons line lines ih =>
    rw [List.mapM_cons, List.mapM_cons, same line List.mem_cons_self,
      ih fun line mem => same line (List.mem_cons_of_mem _ mem)]

theorem renderLines_congr
    (same : ∀ line ∈ Text.split '\n' t, render values line = render values' line) :
    renderLines values t = renderLines values' t := by
  rw [renderLines, renderLines, mapM_render_congr same]

private theorem mapM_render_error (h : lines.mapM (render values) = .error e) :
    ∃ line ∈ lines, render values line = .error e := by
  induction lines with
  | nil => simp [pure, Except.pure] at h
  | cons line lines ih =>
    rw [List.mapM_cons] at h
    cases first : render values line with
    | error err =>
      rw [first] at h
      obtain rfl : err = e := Except.error.inj h
      exact ⟨line, List.mem_cons_self, first⟩
    | ok r =>
      cases others : lines.mapM (render values) with
      | error err =>
        rw [first, others] at h
        obtain ⟨line, mem, failed⟩ := ih (others.trans h)
        exact ⟨line, List.mem_cons_of_mem _ mem, failed⟩
      | ok rs =>
        rw [first, others] at h
        simp [bind, Except.bind, pure, Except.pure] at h

/-- Lines fail to render only for one of them. -/
theorem renderLines_error (h : renderLines values t = .error e) :
    ∃ line ∈ Text.split '\n' t, render values line = .error e := by
  refine mapM_render_error ?_
  rw [renderLines] at h
  cases made : (Text.split '\n' t).mapM (render values) with
  | error err => simpa [made, Except.map] using h
  | ok rs => simp [made, Except.map] at h

end Placeholder

end Scaffold
