import Mathlib.Data.List.TakeWhile
import Scaffold.Proofs.Placeholder.Rendering

/-!
# Tokens as they are spelled

What is read as a token is the written form of its argument, and the written form of an
argument is read as a token wherever it stands. No token goes over the end of a line, so a
text has the tokens of its lines, and lines can be rendered one by one. If the value of every
token is its own written form, rendering gives the text back: what has been put in is not
read again.
-/

namespace Scaffold

namespace Text

variable {before after t : Text} {sep : Char}

/-- A text is cut behind what holds no separator. -/
theorem cut?_append (h : sep ∉ before) :
    cut? sep (before ++ sep :: after) = some (before, after) := by
  induction before with
  | nil => simp [cut?]
  | cons c before ih =>
    obtain ⟨differ, more⟩ := List.ne_and_not_mem_of_not_mem_cons h
    simp [cut?, differ.symm, ih more]

theorem trim_eq_self (h : ∀ c ∈ t, isBlank c = false) : trim t = t := by
  have front : t.dropWhile isBlank = t := by
    cases t with
    | nil => rfl
    | cons c t => simp [h c List.mem_cons_self]
  have back : t.reverse.dropWhile isBlank = t.reverse := by
    cases reversed : t.reverse with
    | nil => rfl
    | cons c more =>
      have mem : c ∈ t := List.mem_reverse.1 (reversed ▸ List.mem_cons_self)
      simp [h c mem]
  rw [trim, front, dropEndWhile, back, List.reverse_reverse]

end Text

namespace Placeholder

variable {a b : Argument} {t line more rest : Text} {lines : List Text} {values : Values} {c : Char}

/-! ## Reading what is written -/

/-- A token can spell this argument. -/
structure IsSpellable (a : Argument) : Prop where
  nonempty : a.name ≠ []
  name : ∀ c ∈ a.name, isWordChar c = true
  default : ∀ d, a.default? = some d → d ≠ [] ∧ ∀ c ∈ d, isDefaultChar c = true

theorem readToken?_token (h : IsSpellable a) (more : Text) :
    readToken? (token a ++ more) = some (a, more) := by
  obtain ⟨name, default?⟩ := a
  obtain ⟨nonempty, chars, default⟩ := h
  dsimp only at nonempty chars default
  cases default? with
  | none =>
    have last : isWordChar '}' = false := by decide
    simp [token, readToken?, List.takeWhile_append_of_pos chars, List.dropWhile_append_of_pos chars,
      last, nonempty]
  | some d =>
    obtain ⟨some, inside⟩ := default d rfl
    have colon : isWordChar ':' = false := by decide
    have last : isDefaultChar '}' = false := by decide
    simp [token, readToken?, List.takeWhile_append_of_pos chars, List.dropWhile_append_of_pos chars,
      List.takeWhile_append_of_pos inside, List.dropWhile_append_of_pos inside, colon, last,
      nonempty, some]

theorem isSpellable_of_readToken? (h : readToken? t = some (a, rest)) : IsSpellable a := by
  unfold readToken? at h
  split at h
  · rename_i body
    simp only at h
    split at h
    · simp at h
    · rename_i nonempty
      split at h
      · simp only [Option.some.injEq, Prod.mk.injEq] at h
        obtain ⟨rfl, _⟩ := h
        exact ⟨nonempty, fun c => List.mem_takeWhile_imp, by simp⟩
      · rename_i tail _
        split at h
        · simp at h
        · rename_i some
          split at h
          · simp only [Option.some.injEq, Prod.mk.injEq] at h
            obtain ⟨rfl, _⟩ := h
            refine ⟨nonempty, fun c => List.mem_takeWhile_imp, fun d known => ?_⟩
            obtain rfl := Option.some.inj known
            exact ⟨some, fun c => List.mem_takeWhile_imp⟩
          · simp at h
      · simp at h
  · simp at h

/-- A token is read exactly where one is written. -/
theorem readToken?_eq_some_iff :
    readToken? t = some (a, rest) ↔ IsSpellable a ∧ t = token a ++ rest := by
  constructor
  · exact fun h => ⟨isSpellable_of_readToken? h, eq_of_readToken? h⟩
  · rintro ⟨spellable, rfl⟩
    exact readToken?_token spellable rest

/-- What is spelled in a text can be spelled. -/
theorem isSpellable_of_mem_arguments (h : a ∈ arguments t) : IsSpellable a := by
  unfold arguments at h
  fun_induction pieces t with
  | case1 => simp at h
  | case2 c rest b after read ih =>
    rcases List.mem_cons.1 h with rfl | mem
    · exact isSpellable_of_readToken? read
    · exact ih mem
  | case3 c rest none ih => exact ih h

/-- Two tokens of one name that are written alike have the same default. -/
theorem eq_of_token_eq (name : a.name = b.name) (same : token a = token b) : a = b := by
  obtain ⟨n, d⟩ := a
  obtain ⟨_, d'⟩ := b
  dsimp only at name
  subst name
  cases d <;> cases d' <;> simp [token] at same ⊢
  exact same

theorem range_of_isAlphanum (h : c.isAlphanum = true) :
    0x30 ≤ c.toNat ∧ c.toNat ≤ 0x7A := by
  rcases Bool.or_eq_true_iff.1 h with alpha | digit
  · rcases Bool.or_eq_true_iff.1 alpha with upper | lower
    · obtain ⟨low, high⟩ := of_decide_eq_true upper
      exact ⟨Nat.le_trans (by decide) low, Nat.le_trans high (by decide)⟩
    · obtain ⟨low, high⟩ := Bool.and_eq_true_iff.1 lower
      exact ⟨Nat.le_trans (by decide) (of_decide_eq_true low),
        Nat.le_trans (of_decide_eq_true high) (by decide)⟩
  · obtain ⟨low, high⟩ := Bool.and_eq_true_iff.1 digit
    exact ⟨Nat.le_trans (by decide) (of_decide_eq_true low),
      Nat.le_trans (of_decide_eq_true high) (by decide)⟩

theorem not_isBlank_of_isWordChar (h : isWordChar c = true) : isBlank c = false := by
  have range : 0x30 ≤ c.toNat ∧ c.toNat ≤ 0x7A := by
    rcases Bool.or_eq_true_iff.1 h with alphanumeric | underscore
    · exact range_of_isAlphanum alphanumeric
    · rw [of_decide_eq_true underscore]
      decide
  simp only [isBlank, blankRanges, List.any_cons, List.any_nil, Bool.or_false, Bool.or_eq_false_iff,
    Bool.and_eq_false_iff, decide_eq_false_iff_not]
  omega

/-! ## Lines -/

theorem newline_not_mem_token (h : IsSpellable a) : '\n' ∉ token a := by
  have name : '\n' ∉ a.name := fun mem => absurd (h.name _ mem) (by decide)
  unfold token
  split
  · simp [name]
  · rename_i d known
    have default : '\n' ∉ d := fun mem => absurd ((h.default d known).2 _ mem) (by decide)
    simp [name, default]

/-- Whether a token stands at the front is decided on the first line. -/
theorem readToken?_append_newline (inside : '\n' ∉ line) (more : Text) :
    readToken? (line ++ '\n' :: more)
      = (readToken? line).map fun (a, rest) => (a, rest ++ '\n' :: more) := by
  cases read : readToken? line with
  | some found =>
    obtain ⟨a, rest⟩ := found
    obtain ⟨spellable, rfl⟩ := readToken?_eq_some_iff.1 read
    rw [List.append_assoc, readToken?_token spellable]
    rfl
  | none =>
    rw [Option.map_none, Option.eq_none_iff_forall_not_mem]
    rintro ⟨a, rest⟩ found
    obtain ⟨spellable, same⟩ := readToken?_eq_some_iff.1 found
    rcases List.append_eq_append_iff.1 same with ⟨extra, whole, behind⟩ | ⟨extra, whole, _⟩
    · cases extra with
      | nil =>
        have here : readToken? line = some (a, []) :=
          readToken?_eq_some_iff.2 ⟨spellable, by simpa using whole.symm⟩
        simp [read] at here
      | cons c extra =>
        obtain ⟨rfl, _⟩ := List.cons.inj behind
        exact newline_not_mem_token spellable (by simp [whole])
    · have here : readToken? line = some (a, extra) := readToken?_eq_some_iff.2 ⟨spellable, whole⟩
      simp [read] at here

theorem pieces_append_newline (inside : '\n' ∉ line) (more : Text) :
    pieces (line ++ '\n' :: more) = pieces line ++ .literal '\n' :: pieces more := by
  fun_induction pieces line with
  | case1 =>
    have none : readToken? ('\n' :: more) = none := by simp [readToken?]
    exact pieces_of_readToken?_none none
  | case2 c rest a after read ih =>
    have parts := eq_of_readToken? read
    have later : '\n' ∉ after := by
      intro mem
      rw [parts] at inside
      exact inside (List.mem_append_right _ mem)
    have whole := readToken?_append_newline inside more
    rw [read] at whole
    rw [pieces_of_readToken? whole, ih later]
    rfl
  | case3 c rest none ih =>
    have whole := readToken?_append_newline inside more
    rw [none] at whole
    rw [List.cons_append] at whole ⊢
    rw [pieces_of_readToken?_none whole, ih fun mem => inside (List.mem_cons_of_mem _ mem)]
    rfl

/-- A text has the tokens of its lines. -/
theorem arguments_eq_flatMap_lines (t : Text) :
    arguments t = (Text.split '\n' t).flatMap arguments := by
  have joined : ∀ lines : List Text, (∀ line ∈ lines, '\n' ∉ line) →
      arguments (Text.joinWith '\n' lines) = lines.flatMap arguments := by
    intro lines inside
    induction lines with
    | nil => simp [Text.joinWith, arguments, pieces]
    | cons line lines ih =>
      have first := inside line List.mem_cons_self
      cases lines with
      | nil => simp [Text.joinWith]
      | cons next lines =>
        rw [List.flatMap_cons, ← ih fun line mem => inside line (List.mem_cons_of_mem _ mem)]
        simp only [Text.joinWith, arguments]
        rw [pieces_append_newline first, List.filterMap_append]
        rfl
  have whole := joined (Text.split '\n' t) fun line => Text.not_mem_of_mem_split
  rwa [Text.joinWith_split] at whole

/-- A line is rendered before the text behind its line feed. -/
theorem render_append_newline (inside : '\n' ∉ line) : render values (line ++ '\n' :: t) = (do
    let front ← render values line
    let back ← render values t
    return front ++ '\n' :: back) := by
  rw [render, pieces_append_newline inside, renderPieces_append_eq, render, render]
  cases renderPieces values (pieces line) with
  | error e => rfl
  | ok front =>
    rw [renderPieces, renderPiece]
    cases renderPieces values (pieces t) <;> rfl

/-- Lines are rendered one by one, up to the first that fails. -/
theorem render_joinWith (inside : ∀ line ∈ lines, '\n' ∉ line) (some : lines ≠ []) :
    render values (Text.joinWith '\n' lines)
      = (lines.mapM (render values)).map (Text.joinWith '\n') := by
  induction lines with
  | nil => exact absurd rfl some
  | cons line lines ih =>
    obtain ⟨first, others⟩ := List.forall_mem_cons.1 inside
    cases lines with
    | nil =>
      rw [Text.joinWith, List.mapM_cons, List.mapM_nil]
      cases render values line <;> rfl
    | cons next lines =>
      rw [Text.joinWith, render_append_newline first, ih others (List.cons_ne_nil _ _)]
      simp only [List.mapM_cons]
      cases render values line with
      | error e => rfl
      | ok front =>
        cases render values next with
        | error e => rfl
        | ok back => cases lines.mapM (render values) <;> rfl

/-! ## Rendering what is written by itself -/

/-- The value of every token of the text is the token as it is written. -/
def SpellsOut (values : Values) (t : Text) : Prop :=
  ∀ a ∈ arguments t, values.get? a.name = some (token a)

/-- With such values a text is rendered as it stands. -/
theorem render_of_spellsOut (h : SpellsOut values t) : render values t = .ok t := by
  have value : ∀ a, .token a ∈ pieces t → values.valueOf a = .ok (token a) := by
    intro a mem
    rw [Values.valueOf_ok_iff, h a (mem_arguments_iff.2 mem), Option.some_or]
  have written : Piece.fill token = Piece.text := by
    funext piece
    cases piece <;> rfl
  rw [render, renderPieces_of_valueOf value, written, flatMap_text_pieces]

theorem renderLines_of_spellsOut (h : SpellsOut values t) : renderLines values t = .ok t := by
  have lines : ∀ line ∈ Text.split '\n' t, '\n' ∉ line := fun line => Text.not_mem_of_mem_split
  rw [renderLines, ← render_joinWith lines (Text.split_ne_nil _ _), Text.joinWith_split]
  exact render_of_spellsOut h

end Placeholder

end Scaffold
