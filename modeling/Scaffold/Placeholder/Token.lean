import Scaffold.Argument.Basic
import Scaffold.Text.Blank

/-!
# Placeholder tokens

A token is `#{name}` or `#{name:default}`. A name is one or more ASCII word
characters; a default is one or more characters that are neither white space nor
a closing brace. `pieces` cuts a text into tokens and single characters from
left to right: a token is read wherever one begins, and otherwise one character
is passed over.

`token` is the written form beside the reader: what is read as a token is the
written form of its argument, and nothing of the text is lost by cutting it.
-/

namespace Scaffold

namespace Placeholder

/-- Whether a character may occur in a name. -/
def isWordChar (c : Char) : Bool := c.isAlphanum || c = '_'

/-- Whether a character may occur in a default. -/
def isDefaultChar (c : Char) : Bool := !isBlank c && c ≠ '}'

/-- The token of an argument, as it is written. -/
def token (a : Argument) : Text :=
  match a.default? with
  | none => '#' :: '{' :: a.name ++ ['}']
  | some d => '#' :: '{' :: a.name ++ ':' :: d ++ ['}']

/-- Read the token at the front of a text, and give what stands behind it. -/
def readToken? : Text → Option (Argument × Text)
  | '#' :: '{' :: rest =>
    let name := rest.takeWhile isWordChar
    if name = [] then none
    else match rest.dropWhile isWordChar with
      | '}' :: after => some (⟨name, none⟩, after)
      | ':' :: tail =>
        let value := tail.takeWhile isDefaultChar
        if value = [] then none
        else match tail.dropWhile isDefaultChar with
          | '}' :: after => some (⟨name, some value⟩, after)
          | _ => none
      | _ => none
  | _ => none

/-- A text that starts with a token is the written token and the rest. -/
theorem eq_of_readToken? {t rest : Text} {a : Argument} (h : readToken? t = some (a, rest)) :
    t = token a ++ rest := by
  unfold readToken? at h
  split at h
  · rename_i body
    have hname := List.takeWhile_append_dropWhile (p := isWordChar) (l := body)
    simp only at h
    split at h
    · simp at h
    · split at h
      · rename_i after hafter
        simp only [Option.some.injEq, Prod.mk.injEq] at h
        obtain ⟨rfl, rfl⟩ := h
        rw [hafter] at hname
        simpa [token] using hname.symm
      · rename_i tail htail
        have hvalue := List.takeWhile_append_dropWhile (p := isDefaultChar) (l := tail)
        split at h
        · simp at h
        · split at h
          · rename_i after hafter
            simp only [Option.some.injEq, Prod.mk.injEq] at h
            obtain ⟨rfl, rfl⟩ := h
            rw [hafter] at hvalue
            rw [htail] at hname
            simpa [token, hvalue] using hname.symm
          · simp at h
      · simp at h
  · simp at h

theorem length_lt_of_readToken? {t rest : Text} {a : Argument}
    (h : readToken? t = some (a, rest)) : rest.length < t.length := by
  rw [eq_of_readToken? h]
  unfold token
  split <;> simp <;> omega

/-- A stretch of a text: one character, or a token. -/
inductive Piece where
  | literal (c : Char)
  | token (a : Argument)
  deriving DecidableEq

namespace Piece

/-- The piece as it is written. -/
def text : Piece → Text
  | literal c => [c]
  | token a => Placeholder.token a

/-- The argument of a token. -/
def argument? : Piece → Option Argument
  | literal _ => none
  | token a => some a

end Piece

/-- Cut a text into its tokens and the characters outside of them. -/
def pieces : Text → List Piece
  | [] => []
  | c :: rest =>
    match _found : readToken? (c :: rest) with
    | some (a, after) => .token a :: pieces after
    | none => .literal c :: pieces rest
termination_by t => t.length
decreasing_by
  · exact length_lt_of_readToken? _found
  · exact Nat.lt_succ_self _

/-- The arguments of all tokens of a text, from left to right. -/
def arguments (t : Text) : List Argument := (pieces t).filterMap Piece.argument?

/-- Whether a text holds a token. -/
def contains (t : Text) : Bool := (pieces t).any fun piece => piece.argument?.isSome

/-- The arguments that a text declares, each name once. -/
def declared (t : Text) : List Argument := Argument.collect (arguments t)

/-- A token together with where it lies, in UTF-8 bytes from the start. -/
structure Span where
  start : Nat
  stop : Nat
  argument : Argument
  deriving DecidableEq

/-- The tokens among the pieces, the first of which starts at `offset`. -/
def spansFrom (offset : Nat) : List Piece → List Span
  | [] => []
  | piece :: more =>
    let stop := offset + Text.utf8Length piece.text
    match piece with
    | .literal _ => spansFrom stop more
    | .token a => ⟨offset, stop, a⟩ :: spansFrom stop more

/-- The tokens of a text and where they lie. -/
def spans (t : Text) : List Span := spansFrom 0 (pieces t)

theorem pieces_of_readToken? {t after : Text} {a : Argument}
    (h : readToken? t = some (a, after)) : pieces t = .token a :: pieces after := by
  cases t with
  | nil => simp [readToken?] at h
  | cons c rest =>
    rw [pieces]
    split
    · rename_i heq
      rw [h] at heq
      simp only [Option.some.injEq, Prod.mk.injEq] at heq
      obtain ⟨rfl, rfl⟩ := heq
      rfl
    · rename_i heq
      simp [h] at heq

theorem pieces_of_readToken?_none {c : Char} {rest : Text}
    (h : readToken? (c :: rest) = none) : pieces (c :: rest) = .literal c :: pieces rest := by
  rw [pieces]
  split
  · rename_i heq
    simp [h] at heq
  · rfl

/-- The pieces of a text, put together, are the text. -/
theorem flatMap_text_pieces (t : Text) : (pieces t).flatMap Piece.text = t := by
  fun_induction pieces t with
  | case1 => rfl
  | case2 c rest a after h ih =>
    rw [List.flatMap_cons, ih, eq_of_readToken? h]
    rfl
  | case3 c rest h ih => rw [List.flatMap_cons, ih]; rfl

end Placeholder

end Scaffold
