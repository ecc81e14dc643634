import Mathlib.Data.List.Pairwise
import Mathlib.Data.List.Perm.Basic
import Scaffold.Proofs.Path.Steps
import Scaffold.Proofs.Placeholder.Rendering
import Scaffold.Proofs.Placeholder.Spelling

/-!
# Where tokens are found

Every span of a text holds a token as it is written, no two spans share a byte, and a token
that begins anywhere in the text begins inside a span. There is only one list of spans of this
kind, so what is found is decided by the grammar and not by the way in which it is looked for.
-/

namespace Scaffold

namespace Text

variable {t before before' after after' : Text}

/-- The bytes from `start` to `stop` of a text are those of `s`, and both ends lie between two
characters. -/
def IsSlice (t : Text) (start stop : Nat) (s : Text) : Prop :=
  ∃ before after, t = before ++ s ++ after ∧ utf8Length before = start
    ∧ start + utf8Length s = stop

theorem utf8Length_pos (h : t ≠ []) : 0 < utf8Length t := by
  cases t with
  | nil => exact absurd rfl h
  | cons c rest => exact Nat.add_pos_left (Char.utf8Size_pos c) _

/-- A position between two characters cuts a text in one way. -/
theorem append_inj_of_utf8Length (whole : before ++ after = before' ++ after')
    (length : utf8Length before = utf8Length before') : before = before' ∧ after = after' := by
  induction before generalizing before' with
  | nil =>
    cases before' with
    | nil => exact ⟨rfl, whole⟩
    | cons c rest =>
      have pos := utf8Length_pos (List.cons_ne_nil c rest)
      rw [← length] at pos
      exact absurd pos (Nat.lt_irrefl 0)
  | cons c rest ih =>
    cases before' with
    | nil =>
      have pos := utf8Length_pos (List.cons_ne_nil c rest)
      rw [length] at pos
      exact absurd pos (Nat.lt_irrefl 0)
    | cons c' rest' =>
      obtain ⟨rfl, more⟩ := List.cons.inj whole
      obtain ⟨rfl, same⟩ := ih more (Nat.add_left_cancel length)
      exact ⟨rfl, same⟩

end Text

namespace Placeholder

open Text (IsSlice utf8Length utf8Length_append utf8Length_pos)

variable {a b : Argument} {t before after rest rest' : Text} {ps : List Piece} {l l' : List Span}
  {s s' : Span} {offset : Nat}

/-! ## Tokens at one place -/

theorem token_ne_nil (a : Argument) : token a ≠ [] := by
  rw [token]
  split <;> exact List.cons_ne_nil _ _

/-- Only one token begins at a place. -/
theorem token_append_inj (first : IsSpellable a) (second : IsSpellable b)
    (same : token a ++ rest = token b ++ rest') : a = b := by
  have read := readToken?_token first rest
  rw [same, readToken?_token second] at read
  exact (Prod.mk.inj (Option.some.inj read)).1.symm

/-! ## The list that is made -/

/-- Every span is that of a token among the pieces. -/
theorem exists_token_of_mem_spansFrom (mem : s ∈ spansFrom offset ps) :
    ∃ front back, ps = front ++ .token s.argument :: back
      ∧ offset + utf8Length (front.flatMap Piece.text) = s.start
      ∧ s.start + utf8Length (token s.argument) = s.stop := by
  induction ps generalizing offset with
  | nil => exact absurd mem List.not_mem_nil
  | cons piece more ih =>
    -- a span of a later piece starts behind this piece
    have later (mem : s ∈ spansFrom (offset + utf8Length piece.text) more) :
        ∃ front back, piece :: more = front ++ .token s.argument :: back
          ∧ offset + utf8Length (front.flatMap Piece.text) = s.start
          ∧ s.start + utf8Length (token s.argument) = s.stop := by
      obtain ⟨front, back, split, start, stop⟩ := ih mem
      refine ⟨piece :: front, back, congrArg (piece :: ·) split, ?_, stop⟩
      rw [List.flatMap_cons, utf8Length_append, ← Nat.add_assoc]
      exact start
    cases piece with
    | literal c => exact later mem
    | token a =>
      rcases List.mem_cons.1 mem with rfl | mem
      · exact ⟨[], more, rfl, rfl, rfl⟩
      · exact later mem

theorem start_lt_stop_of_mem_spansFrom (mem : s ∈ spansFrom offset ps) : s.start < s.stop := by
  obtain ⟨_, _, _, _, stop⟩ := exists_token_of_mem_spansFrom mem
  rw [← stop]
  exact Nat.lt_add_of_pos_right (utf8Length_pos (token_ne_nil _))

theorem offset_le_of_mem_spansFrom (mem : s ∈ spansFrom offset ps) : offset ≤ s.start := by
  obtain ⟨_, _, _, start, _⟩ := exists_token_of_mem_spansFrom mem
  rw [← start]
  exact Nat.le_add_right _ _

theorem pairwise_spansFrom :
    (spansFrom offset ps).Pairwise fun s s' => s.stop ≤ s'.start := by
  induction ps generalizing offset with
  | nil => exact List.Pairwise.nil
  | cons piece more ih =>
    cases piece with
    | literal c => exact ih
    | token a => exact List.pairwise_cons.2 ⟨fun s' => offset_le_of_mem_spansFrom, ih⟩

/-- A token that begins in a text begins in one of the spans. What is read at the front either
goes beyond the place where the token begins, or that place lies behind it. -/
theorem exists_mem_spansFrom (offset : Nat) (spellable : IsSpellable a)
    (whole : t = before ++ (token a ++ after)) :
    ∃ s ∈ spansFrom offset (pieces t),
      s.start ≤ offset + utf8Length before ∧ offset + utf8Length before < s.stop := by
  fun_induction pieces t generalizing before offset with
  | case1 =>
    have none := (List.append_eq_nil_iff.1 (List.append_eq_nil_iff.1 whole.symm).2).1
    exact absurd none (token_ne_nil a)
  | case2 c rest b behind read ih =>
    rw [eq_of_readToken? read] at whole
    have later (extra : Text) (front : before = token b ++ extra)
        (more : behind = extra ++ (token a ++ after)) :
        ∃ s ∈ spansFrom offset (.token b :: pieces behind),
          s.start ≤ offset + utf8Length before ∧ offset + utf8Length before < s.stop := by
      rw [front, utf8Length_append, ← Nat.add_assoc]
      obtain ⟨s, mem, inside⟩ := ih _ more
      exact ⟨s, List.mem_cons_of_mem _ mem, inside⟩
    rcases List.append_eq_append_iff.1 whole with ⟨extra, front, more⟩ | ⟨extra, beyond, more⟩
    · exact later extra front more
    · cases extra with
      | nil => exact later [] (by simpa using beyond.symm) (by simpa using more.symm)
      | cons d extra =>
        refine ⟨_, List.mem_cons_self, Nat.le_add_right _ _, Nat.add_lt_add_left ?_ _⟩
        rw [Piece.text, beyond, utf8Length_append]
        exact Nat.lt_add_of_pos_right (utf8Length_pos (List.cons_ne_nil d extra))
  | case3 c rest none ih =>
    cases before with
    | nil =>
      have read := readToken?_token spellable after
      rw [← List.nil_append (token a ++ after), ← whole, none] at read
      exact absurd read (Option.some_ne_none _).symm
    | cons d before =>
      obtain ⟨rfl, more⟩ := List.cons.inj whole
      rw [utf8Length, ← Nat.add_assoc]
      exact ih _ more

/-! ## What is scanned -/

/-- A list of spans that leaves out no token of the text and overlaps nowhere. -/
structure IsScan (t : Text) (l : List Span) : Prop where
  proper : ∀ s ∈ l, s.start < s.stop
  ordered : l.Pairwise fun s s' => s.stop ≤ s'.start
  spelled : ∀ s ∈ l, IsSpellable s.argument ∧ IsSlice t s.start s.stop (token s.argument)
  complete : ∀ a start stop, IsSpellable a → IsSlice t start stop (token a) →
    ∃ s ∈ l, s.start ≤ start ∧ start < s.stop

/-- The spans of a text are scanned from it. -/
theorem isScan_spans (t : Text) : IsScan t (spans t) := by
  refine ⟨fun s => start_lt_stop_of_mem_spansFrom, pairwise_spansFrom, ?_, ?_⟩
  · intro s mem
    obtain ⟨front, back, split, start, stop⟩ := exists_token_of_mem_spansFrom mem
    have there : .token s.argument ∈ pieces t := split ▸ List.mem_append_right _ List.mem_cons_self
    have whole := flatMap_text_pieces t
    rw [split, List.flatMap_append, List.flatMap_cons, ← List.append_assoc] at whole
    refine ⟨?_, front.flatMap Piece.text, back.flatMap Piece.text, whole.symm, ?_, stop⟩
    · exact isSpellable_of_mem_arguments (mem_arguments_iff.2 there)
    · rw [← start, Nat.zero_add]
  · rintro a start stop spellable ⟨before, after, whole, rfl, -⟩
    rw [List.append_assoc] at whole
    have found := exists_mem_spansFrom 0 spellable whole
    rwa [Nat.zero_add] at found

namespace IsScan

theorem pairwise_start (h : IsScan t l) : l.Pairwise fun s s' => s.start < s'.start :=
  h.ordered.imp_of_mem fun mem _ behind => Nat.lt_of_lt_of_le (h.proper _ mem) behind

theorem nodup (h : IsScan t l) : l.Nodup := by
  apply h.pairwise_start.imp
  rintro s _ later rfl
  exact Nat.lt_irrefl _ later

/-- Two spans of a scan that share a byte are the same. -/
theorem eq_of_overlap (h : IsScan t l) (mem : s ∈ l) (mem' : s' ∈ l) (left : s.start < s'.stop)
    (right : s'.start < s.stop) : s = s' := by
  have symmetric : Std.Symm fun s s' : Span => s.stop ≤ s'.start ∨ s'.stop ≤ s.start :=
    ⟨fun _ _ => Or.symm⟩
  have apart : l.Pairwise fun s s' => s.stop ≤ s'.start ∨ s'.stop ≤ s.start := h.ordered.imp Or.inl
  by_contra differ
  have order := apart.forall mem mem' differ
  omega

/-- Spans of two scans that begin at one place are the same, for only one token begins there. -/
theorem eq_of_start_eq (h : IsScan t l) (h' : IsScan t l') (mem : s ∈ l) (mem' : s' ∈ l')
    (start : s.start = s'.start) : s = s' := by
  obtain ⟨spellable, before, after, whole, here, stop⟩ := h.spelled s mem
  obtain ⟨spellable', before', after', whole', here', stop'⟩ := h'.spelled s' mem'
  rw [List.append_assoc] at whole whole'
  have cut := Text.append_inj_of_utf8Length (whole.symm.trans whole')
    (here.trans (start.trans here'.symm))
  have argument : s.argument = s'.argument := token_append_inj spellable spellable' cut.2
  have stops : s.stop = s'.stop := by rw [← stop, ← stop', start, argument]
  cases s
  cases s'
  simp_all

/-- A span of one scan is in every other scan. If the span of the other that covers its start
began earlier, it would be covered by an earlier span of the first, and so be one of the first. -/
theorem mem_of_mem (h : IsScan t l) (h' : IsScan t l') (mem : s ∈ l) : s ∈ l' := by
  induction start : s.start using Nat.strongRecOn generalizing s with
  | ind n ih =>
    obtain ⟨spellable, slice⟩ := h.spelled s mem
    obtain ⟨s', mem', least, most⟩ := h'.complete _ _ _ spellable slice
    rcases Nat.eq_or_lt_of_le least with same | earlier
    · rwa [h.eq_of_start_eq h' mem mem' same.symm]
    · exfalso
      obtain ⟨spellable', slice'⟩ := h'.spelled s' mem'
      obtain ⟨s'', mem'', least', most'⟩ := h.complete _ _ _ spellable' slice'
      have there : s'' ∈ l' := ih s''.start (by omega) mem'' rfl
      have proper := h'.proper s' mem'
      obtain rfl : s'' = s' := h'.eq_of_overlap there mem' (by omega) most'
      have proper' := h.proper s mem
      obtain rfl : s = s'' := h.eq_of_overlap mem mem'' most (by omega)
      exact Nat.lt_irrefl _ earlier

/-- A text has one scan. -/
theorem unique (h : IsScan t l) (h' : IsScan t l') : l = l' := by
  have members (s : Span) : s ∈ l ↔ s ∈ l' := ⟨h.mem_of_mem h', h'.mem_of_mem h⟩
  have perm : l.Perm l' := (List.perm_ext_iff_of_nodup h.nodup h'.nodup).2 members
  refine perm.eq_of_pairwise ?_ h.pairwise_start h'.pairwise_start
  intro s s' _ _ before after
  exact absurd after (Nat.lt_asymm before)

end IsScan

theorem map_argument_spansFrom (offset : Nat) (ps : List Piece) :
    (spansFrom offset ps).map Span.argument = ps.filterMap Piece.argument? := by
  induction ps generalizing offset with
  | nil => rfl
  | cons piece more ih =>
    cases piece with
    | literal c => exact ih _
    | token a => exact congrArg (a :: ·) (ih _)

/-- A text holds a token if its tokens have an argument. -/
theorem contains_iff : contains t = true ↔ arguments t ≠ [] := by
  rw [contains, List.any_eq_true, arguments, Ne, List.filterMap_eq_nil_iff]
  simp only [Option.isSome_iff_ne_none, not_forall, exists_prop, ne_eq]

theorem spans_ne_nil_iff : spans t ≠ [] ↔ arguments t ≠ [] := by
  rw [arguments, ← map_argument_spansFrom 0, spans, Ne, Ne, List.map_eq_nil_iff]

/-- The spans of a text are what its tokens allow and nothing else: every span holds a token as it
is written, no two share a byte, and every token of the text begins in one of them. A text holds
a token if there is a span. -/
theorem spans_exact (t : Text) :
    (∀ l, IsScan t l ↔ l = spans t) ∧ (contains t = true ↔ spans t ≠ []) := by
  refine ⟨fun l => ⟨fun scan => ?_, ?_⟩, contains_iff.trans spans_ne_nil_iff.symm⟩
  · exact scan.unique (isScan_spans t)
  · rintro rfl
    exact isScan_spans t

/-- A text in which a token stands in the default of another, and one that has no default behind
its colon is none. -/
def crowded : Text := "é#\x7ba:#\x7bb\x7d #\x7bc:\x7d #\x7bd\x7d".toList

/-- The token inside of the first one is not found for itself, and the first one ends with it. -/
theorem spans_exact_crowded :
    IsScan crowded
        [⟨2, 10, ⟨"a".toList, some "#\x7bb".toList⟩⟩, ⟨17, 21, ⟨"d".toList, none⟩⟩]
      ∧ contains crowded = true := by
  have found : spans crowded
      = [⟨2, 10, ⟨"a".toList, some "#\x7bb".toList⟩⟩, ⟨17, 21, ⟨"d".toList, none⟩⟩] := by
    decide +kernel
  refine ⟨((spans_exact crowded).1 _).2 found.symm, (spans_exact crowded).2.2 ?_⟩
  rw [found]
  exact List.cons_ne_nil _ _

end Placeholder

end Scaffold
