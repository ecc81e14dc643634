import Scaffold.Proofs.Capture.Shape
import Scaffold.Proofs.Path.Ancestors
import Scaffold.Proofs.Text.Lines

/-!
# Patterns without wildcards

A character that is no wildcard stands for itself, so behind its leading `*/` the globs of a
pattern without wildcards ask for a stretch of text between slashes. A stretch between
slashes is a run of whole segments. Therefore a pattern that ends in a slash hides what has
the segments of the pattern among its own, and without that slash the pattern hides what
ends in them. A scan leaves out what is below a hidden directory anyway, so for a scan the
two are the same.
-/

namespace Scaffold

open FileSystem

/-! ## Stretches between separators -/

namespace Text

variable {sep : Char} {t u : Text} {front pieces back : List Text}

theorem joinWith_append (some : front ≠ []) (some' : pieces ≠ []) :
    joinWith sep (front ++ pieces) = joinWith sep front ++ sep :: joinWith sep pieces := by
  induction front with
  | nil => exact absurd rfl some
  | cons piece front ih =>
    cases front with
    | nil =>
      obtain ⟨first, more, rfl⟩ := List.exists_cons_of_ne_nil some'
      rfl
    | cons next front =>
      have later := ih (List.cons_ne_nil next front)
      rw [List.cons_append] at later
      rw [List.cons_append, List.cons_append, joinWith, later, joinWith, List.append_assoc]
      rfl

/-- The last pieces begin behind a separator, or with the text. -/
theorem suffix_joinWith (sep : Char) (front : List Text) (some : pieces ≠ []) :
    sep :: joinWith sep pieces <:+ sep :: joinWith sep (front ++ pieces) := by
  by_cases first : front = []
  · rw [first, List.nil_append]
  · refine ⟨sep :: joinWith sep front, ?_⟩
    rw [joinWith_append first some, List.cons_append]

/-- A text ends in another one behind a separator if its pieces end in those of the other. -/
theorem cons_suffix_cons_iff : sep :: u <:+ sep :: t ↔ split sep u <:+ split sep t := by
  constructor
  · rintro ⟨before, whole⟩
    cases before with
    | nil => exact (List.cons.inj whole).2 ▸ List.suffix_rfl
    | cons c before =>
      obtain rfl := (List.cons.inj whole).2
      exact ⟨split sep before, (split_append_cons sep before u).symm⟩
  · rintro ⟨front, whole⟩
    have last := suffix_joinWith sep front (split_ne_nil sep u)
    rwa [whole, joinWith_split, joinWith_split] at last

/-- A text has another one between separators, or behind the last one, if the pieces of the
other are a run of its own. -/
theorem between_iff : sep :: u ++ [sep] <:+: sep :: t ∨ sep :: u <:+ sep :: t
    ↔ split sep u <:+: split sep t := by
  constructor
  · rintro (⟨before, after, whole⟩ | last)
    · have parts : before ++ sep :: (u ++ sep :: after) = sep :: t := by simpa using whole
      cases before with
      | nil =>
        obtain rfl := (List.cons.inj parts).2
        rw [split_append_cons]
        exact List.infix_append' [] _ _
      | cons c before =>
        have rest : before ++ sep :: (u ++ sep :: after) = t := (List.cons.inj parts).2
        rw [← rest, split_append_cons, split_append_cons, ← List.append_assoc]
        exact List.infix_append _ _ _
    · exact (cons_suffix_cons_iff.1 last).isInfix
  · rintro ⟨front, back, whole⟩
    have run := suffix_joinWith sep front (split_ne_nil sep u)
    rw [joinWith_split] at run
    by_cases last : back = []
    · right
      rw [last, List.append_nil] at whole
      rwa [whole, joinWith_split] at run
    · left
      have some : front ++ split sep u ≠ [] :=
        List.append_ne_nil_of_right_ne_nil _ (split_ne_nil sep u)
      have parts : t = joinWith sep (front ++ split sep u) ++ sep :: joinWith sep back := by
        rw [← joinWith_append some last, whole, joinWith_split]
      obtain ⟨before, ends⟩ := run
      refine ⟨before, joinWith sep back, ?_⟩
      rw [parts, ← List.cons_append, ← ends]
      simp

end Text

/-! ## Globs of literal characters -/

namespace Glob

variable {c : Char} {t u : Text} {parts : List Part}

/-- The character stands for itself in a glob. -/
def IsLiteral (c : Char) : Prop := c ≠ '*' ∧ c ≠ '?' ∧ c ≠ '['

instance : DecidablePred IsLiteral := fun c =>
  inferInstanceAs (Decidable (c ≠ '*' ∧ c ≠ '?' ∧ c ≠ '['))

theorem parseFrom_literal (h : IsLiteral c) (position : Nat) (before : Option Char)
    (parts : List Part) (rest : Text) : parseFrom position before parts (c :: rest)
      = parseFrom (position + 1) (some c) (.literal c :: parts) rest := by
  obtain ⟨star, question, bracket⟩ := h
  rw [parseFrom] <;> simp_all

/-- Literal characters are read one after the other. -/
theorem exists_parseFrom (literal : ∀ c ∈ u, IsLiteral c) (position : Nat) (before : Option Char)
    (parts : List Part) (rest : Text) : ∃ position' before',
      parseFrom position before parts (u ++ rest)
        = parseFrom position' before' ((u.map .literal).reverse ++ parts) rest := by
  induction u generalizing position before parts with
  | nil => exact ⟨position, before, rfl⟩
  | cons c u ih =>
    obtain ⟨here, others⟩ := List.forall_mem_cons.1 literal
    obtain ⟨position', before', read⟩ := ih others (position + 1) (some c) (.literal c :: parts)
    refine ⟨position', before', ?_⟩
    rw [List.cons_append, parseFrom_literal here, read]
    simp

private theorem parse?_star_slash (rest : Text) :
    parse? ('*' :: '/' :: rest) = parseFrom 1 (some '*') [.stretch] ('/' :: rest) := by
  rw [parse?, parseFrom] <;> simp

theorem parse?_literals (literal : ∀ c ∈ u, IsLiteral c) :
    parse? ('*' :: '/' :: u) = .ok (.stretch :: ('/' :: u).map .literal) := by
  have all : ∀ c ∈ '/' :: u, IsLiteral c := List.forall_mem_cons.2 ⟨by decide, literal⟩
  obtain ⟨position, before, read⟩ := exists_parseFrom all 1 (some '*') [.stretch] []
  rw [List.append_nil] at read
  rw [parse?_star_slash, read, parseFrom]
  simp

theorem parse?_literals_star (literal : ∀ c ∈ u, IsLiteral c) :
    parse? ('*' :: '/' :: u ++ ['*']) = .ok (.stretch :: (('/' :: u).map .literal ++ [.stretch])) := by
  have all : ∀ c ∈ '/' :: u, IsLiteral c := List.forall_mem_cons.2 ⟨by decide, literal⟩
  obtain ⟨position, before, read⟩ := exists_parseFrom all 1 (some '*') [.stretch] ['*']
  have last : parseFrom position before ((('/' :: u).map .literal).reverse ++ [.stretch]) ['*']
      = .ok (.stretch :: (('/' :: u).map .literal ++ [.stretch])) := by
    rw [parseFrom, parseFrom] <;> simp
  rw [List.cons_append, List.cons_append, parse?_star_slash, ← last, ← read]
  rfl

/-- Literal characters accept themselves. -/
theorem accepts_literals : accepts (u.map .literal ++ parts) t = true
    ↔ ∃ rest, t = u ++ rest ∧ accepts parts rest = true := by
  induction u generalizing t with
  | nil => simp
  | cons c u ih =>
    cases t with
    | nil => simp [accepts]
    | cons d t =>
      simp only [List.map_cons, List.cons_append, accepts, Part.hasChar, Bool.and_eq_true,
        decide_eq_true_eq, ih, List.cons.injEq]
      constructor
      · rintro ⟨rfl, rest, rfl, accepted⟩
        exact ⟨rest, ⟨rfl, rfl⟩, accepted⟩
      · rintro ⟨rest, ⟨rfl, rfl⟩, accepted⟩
        exact ⟨rfl, rest, rfl, accepted⟩

/-- A stretch may end anywhere. -/
theorem accepts_stretch : accepts (.stretch :: parts) t = true
    ↔ ∃ back, back <:+ t ∧ accepts parts back = true := by
  have ends (t : Text) : (accepts parts t || someEnd (accepts parts) (fun _ => true) t) = true
      ↔ ∃ back, back <:+ t ∧ accepts parts back = true := by
    induction t with
    | nil => simp [someEnd]
    | cons c t ih =>
      simp only [someEnd, Bool.true_and, Bool.or_eq_true, List.suffix_cons_iff]
      simp only [Bool.or_eq_true] at ih
      constructor
      · rintro (here | later)
        · exact ⟨c :: t, .inl rfl, here⟩
        · obtain ⟨back, suffix, accepted⟩ := ih.1 later
          exact ⟨back, .inr suffix, accepted⟩
      · rintro ⟨back, rfl | suffix, accepted⟩
        · exact .inl accepted
        · exact .inr (ih.2 ⟨back, suffix, accepted⟩)
  rw [accepts, ends]

theorem accepts_nil : accepts [] t = true ↔ t = [] := by
  rw [accepts, List.isEmpty_iff]

/-- A stretch and a text accept what ends in the text. -/
theorem accepts_stretch_literals :
    accepts (.stretch :: u.map .literal) t = true ↔ u <:+ t := by
  have literals (back : Text) : accepts (u.map .literal) back = true ↔ back = u := by
    have read : accepts (u.map .literal ++ []) back = true ↔ _ := accepts_literals
    simpa [accepts_nil] using read
  rw [accepts_stretch]
  simp [literals]

/-- A text between two stretches is accepted in what holds the text. -/
theorem accepts_stretch_literals_stretch :
    accepts (.stretch :: (u.map .literal ++ [.stretch])) t = true ↔ u <:+: t := by
  rw [accepts_stretch]
  constructor
  · rintro ⟨back, ⟨before, rfl⟩, accepted⟩
    obtain ⟨rest, rfl, _⟩ := accepts_literals.1 accepted
    exact ⟨before, rest, by simp⟩
  · rintro ⟨before, after, rfl⟩
    refine ⟨u ++ after, ⟨before, by simp⟩, accepts_literals.2 ⟨after, rfl, ?_⟩⟩
    exact accepts_stretch.2 ⟨[], List.nil_suffix, accepts_nil.2 rfl⟩

end Glob

/-! ## Patterns -/

/-- A pattern without wildcards and without empty segments. -/
structure IsPlainPattern (d : Text) : Prop where
  literal : ∀ c ∈ d, Glob.IsLiteral c
  named : ∀ s ∈ Path.segments d, s ≠ []

instance (d : Text) : Decidable (IsPlainPattern d) :=
  decidable_of_iff (d.all (fun c => decide (Glob.IsLiteral c)) ∧ ∀ s ∈ Path.segments d, s ≠ [])
    ⟨fun ⟨literal, named⟩ => ⟨by simpa using literal, named⟩,
      fun h => ⟨by simpa using h.literal, h.named⟩⟩

variable {d : Text}

/-- A pattern without empty segments does not end in a slash. -/
theorem IsPlainPattern.exists_last (h : IsPlainPattern d) : ∃ front c, d = front ++ [c] ∧ c ≠ '/' := by
  rcases List.eq_nil_or_concat d with rfl | ⟨front, c, rfl⟩
  · exact absurd rfl (h.named [] (by simp [Path.segments]))
  · refine ⟨front, c, List.concat_eq_append, ?_⟩
    rintro rfl
    have empty : [] ∈ Path.segments (front.concat '/') := by
      rw [List.concat_eq_append, Path.segments, Text.split_append_cons]
      simp
    exact h.named [] empty rfl

namespace IgnorePattern

theorem exactGlob_plain (h : IsPlainPattern d) : exactGlob d = '*' :: '/' :: d := by
  obtain ⟨front, c, rfl, notSlash⟩ := h.exists_last
  have kept : Text.dropEndWhile (· = '/') (('*' :: '/' :: front) ++ c :: []) = _ :=
    Text.dropEndWhile_append_cons (decide_eq_false notSlash)
  simpa [exactGlob, Text.dropEndWhile] using kept

theorem nestedGlob_plain (h : IsPlainPattern d) : nestedGlob d = '*' :: '/' :: d := by
  obtain ⟨front, c, rfl, notSlash⟩ := h.exists_last
  simp [nestedGlob, Text.endsIn, notSlash]

theorem exactGlob_slash (h : IsPlainPattern d) : exactGlob (d ++ ['/']) = '*' :: '/' :: d := by
  rw [← exactGlob_plain h, exactGlob, exactGlob]
  exact Text.dropEndWhile_concat (t := '*' :: '/' :: d) rfl

theorem nestedGlob_slash (d : Text) :
    nestedGlob (d ++ ['/']) = '*' :: '/' :: (d ++ ['/']) ++ ['*'] := by
  simp [nestedGlob, Text.endsIn]

/-- The pattern hides what ends in its segments. -/
theorem exists_compile_plain (h : IsPlainPattern d) : ∃ p, compile d = .ok p
    ∧ ∀ r, p.hides r = true ↔ Path.segments d <:+ Path.segments r := by
  have read := Glob.parse?_literals h.literal
  refine ⟨_, by
    rw [compile, compileGlob, compileGlob, nestedGlob_plain h, exactGlob_plain h, read]; rfl,
    fun r => ?_⟩
  simp only [hides, Glob.covers_eq_accepts, Bool.or_self, Glob.accepts_stretch_literals]
  exact Text.cons_suffix_cons_iff

/-- With a slash behind it, the pattern hides what has its segments among its own. -/
theorem exists_compile_slash (h : IsPlainPattern d) : ∃ p, compile (d ++ ['/']) = .ok p
    ∧ ∀ r, p.hides r = true ↔ Path.segments d <:+: Path.segments r := by
  have slashed : ∀ c ∈ d ++ ['/'], Glob.IsLiteral c :=
    List.forall_mem_append.2 ⟨h.literal, List.forall_mem_singleton.2 (by decide)⟩
  have nested := Glob.parse?_literals_star slashed
  have exact' := Glob.parse?_literals h.literal
  refine ⟨_, by
    rw [compile, compileGlob, compileGlob, nestedGlob_slash, exactGlob_slash h, nested, exact']; rfl,
    fun r => ?_⟩
  simp only [hides, Glob.covers_eq_accepts, Bool.or_eq_true, Glob.accepts_stretch_literals,
    Glob.accepts_stretch_literals_stretch]
  exact Text.between_iff

end IgnorePattern

namespace IgnorePatterns

variable {front back : List Text} {ps : IgnorePatterns}

/-- Patterns are read from the first to the last. -/
theorem compile_append_cons {p : IgnorePattern} (read : IgnorePattern.compile d = .ok p) :
    compile (front ++ d :: back) = (do
      let before ← compile front
      let after ← compile back
      return before ++ p :: after) := by
  rw [compile, compile, compile, List.mapM_append, List.mapM_cons, read]
  cases List.mapM IgnorePattern.compile front <;> cases List.mapM IgnorePattern.compile back <;> rfl

theorem hide_append_cons {p : IgnorePattern} {before after : IgnorePatterns} {r : Path} :
    hide (before ++ p :: after) r = true
      ↔ p.hides r = true ∨ hide (before ++ after) r = true := by
  simp only [hide, List.any_append, List.any_cons, Bool.or_eq_true]
  exact or_left_comm

end IgnorePatterns

/-! ## Scans -/

/-- The name of a node is shown without a slash. -/
theorem slash_not_mem_lossy {name : Name} (h : isNodeName name = true) : '/' ∉ name.lossy := by
  cases name with
  | text t => exact (isStep_of_isNodeName h).1.word.2
  | binary bytes undecodable =>
    simp only [isNodeName, Bool.and_eq_true, List.all_eq_true, decide_eq_true_eq] at h
    exact Utf8.slash_not_mem_decodeLossy fun mem => absurd rfl (h.1 _ mem).1

/-- The segments of a path that is made of names are the names. -/
theorem segments_relativePath {names : List Name} (proper : ∀ name ∈ names, isNodeName name = true)
    (some : names ≠ []) : Path.segments (relativePath names) = texts names := by
  refine Path.segments_joinWith (by simpa [texts] using some) fun t mem => ?_
  obtain ⟨name, inside, rfl⟩ := List.mem_map.1 mem
  exact slash_not_mem_lossy (proper name (List.mem_reverse.1 inside))

namespace Scan

variable {ps ps' : IgnorePatterns} {names : List Name}

/-- If more patterns hide nothing but what is below something that fewer patterns hide, the
same is visible. -/
theorem isVisible_eq_of_outer (less : ∀ r, ps'.hide r = true → ps.hide r = true)
    (outer : ∀ part, part ≠ [] → part <:+ names → ps.hide (relativePath part) = true →
      ∃ above, above ≠ [] ∧ above <:+ part ∧ ps'.hide (relativePath above) = true) :
    isVisible ps names = isVisible ps' names := by
  rw [Bool.eq_iff_iff, isVisible_iff, isVisible_iff]
  constructor
  · intro visible part some suffix
    exact Bool.eq_false_iff.2 fun hidden =>
      Bool.eq_false_iff.1 (visible part some suffix) (less _ hidden)
  · intro visible part some suffix
    refine Bool.eq_false_iff.2 fun hidden => ?_
    obtain ⟨above, some', suffix', hidden'⟩ := outer part some suffix hidden
    exact Bool.eq_false_iff.1 (visible above some' (suffix'.trans suffix)) hidden'

/-- A run of segments in the path of a node ends the path of the node or of a directory above. -/
theorem exists_above_of_run {run : List Text} (some : run ≠ []) (among : run <:+: texts names) :
    ∃ above, above ≠ [] ∧ above <:+ names ∧ run <:+ texts above := by
  obtain ⟨front, back, whole⟩ := among
  obtain ⟨outer, inner, parts, same, _⟩ := List.map_eq_append_iff.1 whole.symm
  refine ⟨outer.reverse, ?_, ⟨inner.reverse, ?_⟩, ⟨front, ?_⟩⟩
  · intro none
    rw [List.reverse_eq_nil_iff.1 none] at same
    exact some (List.append_eq_nil_iff.1 same.symm).2
  · rw [← List.reverse_append, ← parts, List.reverse_reverse]
  · rw [← same, texts, List.reverse_reverse]

/-- Of two patterns, let one hide what has a run of segments among its own and the other what
ends in it. What the first one hides lies in something that the second one hides. -/
theorem isVisible_eq_of_run {inside last : IgnorePattern} {run : List Text} (some : run ≠ [])
    (among : ∀ r, inside.hides r = true ↔ run <:+: Path.segments r)
    (ends : ∀ r, last.hides r = true ↔ run <:+ Path.segments r) (before after : IgnorePatterns)
    (proper : ∀ name ∈ names, isNodeName name = true) :
    isVisible (before ++ inside :: after) names = isVisible (before ++ last :: after) names := by
  refine isVisible_eq_of_outer (fun r hidden => ?_) fun part nonempty suffix hidden => ?_
  · refine IgnorePatterns.hide_append_cons.2 ?_
    exact (IgnorePatterns.hide_append_cons.1 hidden).imp_left fun here =>
      (among r).2 ((ends r).1 here).isInfix
  · rcases IgnorePatterns.hide_append_cons.1 hidden with here | others
    · have proper : ∀ name ∈ part, isNodeName name = true := fun name mem =>
        proper name (suffix.subset mem)
      have here := (among _).1 here
      rw [segments_relativePath proper nonempty] at here
      obtain ⟨above, nonempty', outer, here⟩ := exists_above_of_run some here
      refine ⟨above, nonempty', outer, IgnorePatterns.hide_append_cons.2 (.inl ((ends _).2 ?_))⟩
      rwa [segments_relativePath (fun name mem => proper name (outer.subset mem)) nonempty']
    · exact ⟨part, nonempty, List.suffix_rfl, IgnorePatterns.hide_append_cons.2 (.inr others)⟩

end Scan

/-- A scan depends on its patterns only in what they leave visible. -/
theorem scan_eq_of_isVisible {fs : FileSystem} {ps ps' : IgnorePatterns}
    (same : ∀ root names x, fs.get? (names ++ root) = some x →
      Scan.isVisible ps names = Scan.isVisible ps' names) (path : Path) :
    scan fs ps path = scan fs ps' path := by
  have visited (root : Place) : Scan.visits fs root ps = Scan.visits fs root ps' := by
    refine Scan.visits_eq_of_mem_iff fun ⟨names, x⟩ => ?_
    rw [Scan.mem_visits, Scan.mem_visits]
    exact and_congr_right fun ⟨_, found⟩ => by rw [same root names x found]
  simp only [scan, visited]

/-- A pattern without wildcards acts on whole segments. With a slash behind it, it hides what
has the segments of the pattern as a run among its own; without, it hides what ends in them.
Scans with the one and with the other give the same answer, whatever else they ignore. -/
theorem plain_pattern_acts_on_segments {d : Text} (h : IsPlainPattern d) :
    ∃ inside last, IgnorePattern.compile (d ++ ['/']) = .ok inside
      ∧ IgnorePattern.compile d = .ok last
      ∧ (∀ r, inside.hides r = true ↔ Path.segments d <:+: Path.segments r)
      ∧ (∀ r, last.hides r = true ↔ Path.segments d <:+ Path.segments r)
      ∧ ∀ front back fs path,
        (IgnorePatterns.compile (front ++ (d ++ ['/']) :: back)).bind (fun ps => scan fs ps path)
          = (IgnorePatterns.compile (front ++ d :: back)).bind fun ps => scan fs ps path := by
  obtain ⟨inside, read, among⟩ := IgnorePattern.exists_compile_slash h
  obtain ⟨last, read', ends⟩ := IgnorePattern.exists_compile_plain h
  refine ⟨inside, last, read, read', among, ends, ?_⟩
  intro front back fs path
  rw [IgnorePatterns.compile_append_cons read, IgnorePatterns.compile_append_cons read']
  cases IgnorePatterns.compile front with
  | error e => rfl
  | ok before =>
    cases IgnorePatterns.compile back with
    | error e => rfl
    | ok after =>
      apply scan_eq_of_isVisible
      intro root names x found
      have proper : ∀ name ∈ names, isNodeName name = true := by
        intro name mem
        exact isNodeName_of_mem found (List.mem_append_left root mem)
      exact Scan.isVisible_eq_of_run (Text.split_ne_nil '/' d) among ends before after proper

/-- A pattern of two segments hides what is below them if it ends in a slash, and neither of
the two patterns hides a directory whose name only ends like the first segment. -/
theorem plain_pattern_acts_on_segments_build :
    IsPlainPattern "app/build".toList ∧ ∃ inside last,
      IgnorePattern.compile "app/build/".toList = .ok inside
        ∧ IgnorePattern.compile "app/build".toList = .ok last
        ∧ inside.hides "crates/app/build/out.o".toList = true
        ∧ last.hides "crates/app/build/out.o".toList = false
        ∧ last.hides "crates/app/build".toList = true
        ∧ inside.hides "webapp/build/out.o".toList = false
        ∧ ∀ fs path, (IgnorePatterns.compile ["app/build/".toList]).bind (fun ps => scan fs ps path)
            = (IgnorePatterns.compile ["app/build".toList]).bind fun ps => scan fs ps path := by
  have plain : IsPlainPattern "app/build".toList := by decide
  obtain ⟨inside, last, read, read', among, ends, scans⟩ := plain_pattern_acts_on_segments plain
  refine ⟨plain, inside, last, read, read', (among _).2 (by decide), ?_, (ends _).2 (by decide), ?_,
    scans [] []⟩
  · exact Bool.eq_false_iff.2 fun hidden => absurd ((ends _).1 hidden) (by decide)
  · exact Bool.eq_false_iff.2 fun hidden => absurd ((among _).1 hidden) (by decide)

end Scaffold
