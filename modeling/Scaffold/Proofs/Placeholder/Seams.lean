import Mathlib.Data.List.Chain
import Scaffold.Proofs.Placeholder.Scanning

/-!
# Where pieces meet

Rendering sets the values of tokens between the characters that stand outside of them. No token
goes over the end of a line, so it makes no difference whether the lines are rendered one by one
or the text as a whole. And no token arises where two pieces meet, as long as neither the values
nor the characters outside of the tokens open one: then a text that was rendered stays as it is.
-/

namespace Scaffold

namespace Placeholder

variable {t : Text} {values : Values} {ps front back : List Piece} {piece next : Piece}
  {v : Argument → Text} {c d : Char}

/-! ## Lines -/

/-- Rendering the lines of a text one by one and joining them is rendering the text at once: the
results are the same, and so is the argument that is reported if a value is missing. -/
theorem renderLines_eq_render (values : Values) (t : Text) :
    renderLines values t = render values t := by
  have lines : ∀ line ∈ Text.split '\n' t, '\n' ∉ line := fun line => Text.not_mem_of_mem_split
  rw [renderLines, ← render_joinWith lines (Text.split_ne_nil _ _), Text.joinWith_split]

/-! ## Tokens that do not arise -/

/-- The stretches of a text before, between and behind its tokens. -/
def literalParts : List Piece → List Text
  | [] => [[]]
  | .literal c :: more => (literalParts more).modifyHead (c :: ·)
  | .token _ :: more => [] :: literalParts more

/-- There is one stretch more than there are tokens. -/
theorem length_literalParts (ps : List Piece) :
    (literalParts ps).length = (ps.filterMap Piece.argument?).length + 1 := by
  induction ps with
  | nil => rfl
  | cons piece ps ih =>
    cases piece with
    | literal c => exact (List.length_modifyHead ..).trans ih
    | token a => exact congrArg (· + 1) ih

theorem literalParts_ne_nil (ps : List Piece) : literalParts ps ≠ [] :=
  List.ne_nil_of_length_eq_add_one (length_literalParts ps)

/-- Two characters that stand next to each other outside of the tokens do so in one stretch. -/
theorem exists_mem_literalParts (h : [.literal c, .literal d] <:+: ps) :
    ∃ s ∈ literalParts ps, [c, d] <:+: s := by
  induction ps with
  | nil => exact absurd (List.infix_nil.1 h) (List.cons_ne_nil _ _)
  | cons piece ps ih =>
    rcases List.infix_cons_iff.1 h with here | later
    · obtain ⟨more, same⟩ := here
      obtain ⟨rfl, rfl⟩ := List.cons.inj same
      cases parts : literalParts more with
      | nil => exact absurd parts (literalParts_ne_nil more)
      | cons part parts' =>
        refine ⟨c :: d :: part, ?_, [], part, rfl⟩
        simp [literalParts, parts]
    · obtain ⟨s, mem, inside⟩ := ih later
      cases piece with
      | token a => exact ⟨s, List.mem_cons_of_mem _ mem, inside⟩
      | literal e =>
        rw [literalParts]
        cases parts : literalParts ps with
        | nil => exact absurd parts (literalParts_ne_nil ps)
        | cons part parts' =>
          rw [parts] at mem
          rcases List.mem_cons.1 mem with rfl | mem
          · exact ⟨e :: s, List.mem_cons_self, inside.trans (List.suffix_cons e s).isInfix⟩
          · exact ⟨s, List.mem_cons_of_mem _ mem, inside⟩

/-- Two neighbours that do not open a token. -/
def Apart (c d : Char) : Prop := ¬ (c = '#' ∧ d = '{')

theorem isChain_apart_of_not_mem (h : '#' ∉ t) : t.IsChain Apart := by
  rw [List.isChain_iff_forall_rel_of_append_cons_cons]
  rintro c d front back rfl ⟨rfl, _⟩
  exact h (List.mem_append_right _ List.mem_cons_self)

/-- Where no neighbours open a token there is none. -/
theorem arguments_eq_nil (h : t.IsChain Apart) : arguments t = [] := by
  rw [List.eq_nil_iff_forall_not_mem]
  intro a mem
  obtain ⟨front, back, split⟩ := List.append_of_mem (mem_arguments_iff.1 mem)
  have whole := flatMap_text_pieces t
  obtain ⟨rest, opened⟩ : ∃ rest, token a = '#' :: '{' :: rest := by
    rw [token]
    split <;> exact ⟨_, rfl⟩
  rw [split, List.flatMap_append, List.flatMap_cons, Piece.text, opened] at whole
  exact List.isChain_iff_forall_rel_of_append_cons_cons.1 h whole.symm ⟨rfl, rfl⟩

section

variable (plain : ∀ s ∈ literalParts ps, ¬ ['#', '{'] <:+: s)
  (closed : ∀ a, .token a ∈ ps → v a ≠ [] ∧ '#' ∉ v a ∧ '{' ∉ v a)

include plain closed

/-- Where two pieces meet no token is opened: a value has neither of the two characters, and two
characters outside of the tokens that meet stand in one stretch. -/
theorem apart_at_seam (split : ps = front ++ piece :: next :: back)
    (last : c ∈ (piece.fill v).getLast?) (first : d ∈ (next.fill v).head?) : Apart c d := by
  rintro ⟨rfl, rfl⟩
  have here : piece ∈ ps := by simp [split]
  have there : next ∈ ps := by simp [split]
  cases piece with
  | token a => exact (closed a here).2.1 (List.mem_of_getLast? last)
  | literal c =>
    cases next with
    | token a => exact (closed a there).2.2 (List.mem_of_head? first)
    | literal d =>
      obtain rfl : c = '#' := by simpa [Piece.fill] using last
      obtain rfl : d = '{' := by simpa [Piece.fill] using first
      have together : [.literal '#', .literal '{'] <:+: ps := ⟨front, back, by simp [split]⟩
      obtain ⟨s, mem, opened⟩ := exists_mem_literalParts together
      exact plain s mem opened

/-- No token is opened where values are put in that are not empty and have neither of the
characters that open one. -/
theorem isChain_apart_fill : (ps.flatMap (Piece.fill v)).IsChain Apart := by
  have nonempty : [] ∉ ps.map (Piece.fill v) := by
    intro mem
    obtain ⟨piece, there, empty⟩ := List.mem_map.1 mem
    cases piece with
    | literal c => exact List.cons_ne_nil _ _ empty
    | token a => exact (closed a there).1 empty
  have within : ∀ s ∈ ps.map (Piece.fill v), s.IsChain Apart := by
    intro s mem
    obtain ⟨piece, there, rfl⟩ := List.mem_map.1 mem
    cases piece with
    | literal c => exact List.isChain_singleton c
    | token a => exact isChain_apart_of_not_mem (closed a there).2.1
  have between : (ps.map (Piece.fill v)).IsChain
      fun s s' => ∀ c ∈ s.getLast?, ∀ d ∈ s'.head?, Apart c d := by
    rw [List.isChain_map, List.isChain_iff_forall_rel_of_append_cons_cons]
    intro piece next front back split c last d first
    exact apart_at_seam plain closed split last first
  exact (List.isChain_flatten nonempty).2 ⟨within, between⟩

end

/-- A text is rendered for good if no token is opened between its tokens and every token has a
value, not empty and without the characters that open one. Then the result has no token, and
rendering it with whatever values gives it back. -/
theorem render_settles (plain : ∀ s ∈ literalParts (pieces t), ¬ ['#', '{'] <:+: s)
    (closed : ∀ a ∈ arguments t, ∃ v, (values.get? a.name).or a.default? = some v
      ∧ v ≠ [] ∧ '#' ∉ v ∧ '{' ∉ v) :
    ∃ r, render values t = .ok r ∧ contains r = false
      ∧ ∀ values', render values' r = .ok r := by
  let v (a : Argument) : Text := ((values.get? a.name).or a.default?).getD []
  have known (a : Argument) (mem : .token a ∈ pieces t) :
      (values.get? a.name).or a.default? = some (v a) ∧ v a ≠ [] ∧ '#' ∉ v a ∧ '{' ∉ v a := by
    obtain ⟨u, value, facts⟩ := closed a (mem_arguments_iff.2 mem)
    have same : v a = u := by simp only [v, value, Option.getD_some]
    rw [same]
    exact ⟨value, facts⟩
  have rendered := renderPieces_of_valueOf fun a mem => Values.valueOf_ok_iff.2 (known a mem).1
  have none := arguments_eq_nil (isChain_apart_fill plain fun a mem => (known a mem).2)
  refine ⟨_, rendered, ?_, fun values' => render_eq_of_arguments_nil none⟩
  rw [← Bool.not_eq_true, contains_iff]
  exact not_not.2 none

/-- A text in which half of an opening stands before a token and the other half behind one, and two
tokens stand side by side. -/
def halves : Text := "é##\x7ba\x7d#\x7bb:x\x7d\x7bé".toList

theorem render_settles_halves :
    render (SortedMap.empty.insert "a".toList "v".toList) halves = .ok "é#vx\x7bé".toList
      ∧ contains "é#vx\x7bé".toList = false
      ∧ ∀ values', render values' "é#vx\x7bé".toList = .ok "é#vx\x7bé".toList := by
  let values : Values := SortedMap.empty.insert "a".toList "v".toList
  have rendered : render values halves = .ok "é#vx\x7bé".toList := by decide +kernel
  have plain : ∀ s ∈ literalParts (pieces halves), ¬ ['#', '{'] <:+: s := by decide +kernel
  have spelled : arguments halves = [⟨"a".toList, none⟩, ⟨"b".toList, some "x".toList⟩] := by
    decide +kernel
  have closed : ∀ a ∈ arguments halves, ∃ v, (values.get? a.name).or a.default? = some v
      ∧ v ≠ [] ∧ '#' ∉ v ∧ '{' ∉ v := by
    rw [spelled]
    intro a mem
    rcases List.mem_cons.1 mem with rfl | mem
    · exact ⟨"v".toList, rfl, by decide⟩
    · obtain rfl := List.mem_singleton.1 mem
      exact ⟨"x".toList, rfl, by decide⟩
  obtain ⟨r, done, settled⟩ := render_settles plain closed
  obtain rfl := Except.ok.inj (done.symm.trans rendered)
  exact ⟨done, settled⟩

end Placeholder

end Scaffold
