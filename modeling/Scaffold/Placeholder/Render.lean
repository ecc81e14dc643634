import Scaffold.Placeholder.Token
import Scaffold.Value.Assignment

/-!
# Rendering

Rendering replaces every token of a text by its value in a single pass. The
value of a token is the one that is given for its name, else its own default; a
token that has neither stops the rendering. What has been put in is never read
again, so a value may look like a token.
-/

namespace Scaffold

namespace Placeholder

/-- What a piece of a text becomes. -/
def renderPiece (values : Values) : Piece → Except Error Text
  | .literal c => .ok [c]
  | .token a => values.valueOf a

/-- What the pieces of a text become. -/
def renderPieces (values : Values) : List Piece → Except Error Text
  | [] => .ok []
  | piece :: more =>
    match renderPiece values piece with
    | .error e => .error e
    | .ok first =>
      match renderPieces values more with
      | .error e => .error e
      | .ok rest => .ok (first ++ rest)

/-- Replace every token of a text by its value. -/
def render (values : Values) (t : Text) : Except Error Text := renderPieces values (pieces t)

/-- Render each line of a text for itself. -/
def renderLines (values : Values) (t : Text) : Except Error Text :=
  (Text.split '\n' t).mapM (render values) |>.map (Text.joinWith '\n')

@[simp] theorem renderPieces_nil (values : Values) : renderPieces values [] = .ok [] := rfl

/-- A text without tokens is rendered as it stands. -/
theorem render_eq_of_arguments_nil {values : Values} {t : Text} (h : arguments t = []) :
    render values t = .ok t := by
  have key : ∀ ps : List Piece, ps.filterMap Piece.argument? = [] →
      renderPieces values ps = .ok (ps.flatMap Piece.text) := by
    intro ps hps
    induction ps with
    | nil => rfl
    | cons piece more ih =>
      cases piece with
      | literal c =>
        have hmore : more.filterMap Piece.argument? = [] := by simpa [Piece.argument?] using hps
        simp [renderPieces, renderPiece, ih hmore, Piece.text]
      | token a => simp [Piece.argument?] at hps
  rw [render, key _ h, flatMap_text_pieces]

end Placeholder

end Scaffold
