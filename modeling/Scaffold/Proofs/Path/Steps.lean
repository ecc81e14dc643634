import Scaffold.FileSystem.Action

/-!
# The steps of a path

Empty segments and dots lead nowhere. What is left of the segments of a path are its
steps, each a name or `..`. Joining a word to a path adds one segment at the end and
changes no step before it. The ancestors of a path lead along the front parts of its
steps, each one step shorter than the one before, and start where the path does.
-/

namespace Scaffold

namespace Text

theorem split_append_cons (sep : Char) (a b : Text) :
    split sep (a ++ sep :: b) = split sep a ++ split sep b := by
  induction a with
  | nil => simp [split]
  | cons c a ih =>
    rw [List.cons_append, split, split]
    split
    · rw [ih]
      rfl
    · cases pieces : split sep a with
      | nil => exact absurd pieces (split_ne_nil sep a)
      | cons piece more =>
        rw [ih, pieces]
        rfl

theorem split_of_not_mem {sep : Char} {t : Text} (h : sep ∉ t) : split sep t = [t] := by
  induction t with
  | nil => rfl
  | cons c t ih =>
    have hc : c ≠ sep := fun eq => h (eq ▸ List.mem_cons_self)
    rw [split, if_neg hc, ih fun hmem => h (List.mem_cons_of_mem _ hmem)]

theorem utf8Length_append (a b : Text) : utf8Length (a ++ b) = utf8Length a + utf8Length b := by
  induction a with
  | nil => simp [utf8Length]
  | cons c a ih =>
    rw [List.cons_append, utf8Length, utf8Length, ih, Nat.add_assoc]

end Text

namespace Path

/-- A text that stands between two slashes. -/
def IsWord (t : Text) : Prop := t ≠ [] ∧ '/' ∉ t

/-- The segments of a path that lead somewhere. -/
def steps (p : Path) : List Text := (segments p).filter fun s => !isIdle s

@[simp] theorem steps_nil : steps [] = [] := rfl

theorem IsWord.head?_ne {t : Text} (h : IsWord t) : t.head? ≠ some '/' := by
  intro eq
  exact h.2 (List.mem_of_mem_head? eq)

theorem IsWord.not_absolute {t : Text} (h : IsWord t) : isAbsolute t = false := by
  simpa [isAbsolute] using h.head?_ne

theorem IsWord.getLast?_ne {t : Text} (h : IsWord t) : t.getLast? ≠ some '/' := by
  intro eq
  exact h.2 (List.mem_of_getLast? eq)

/-- In front of a word that is joined to a path stand the same segments, whatever the word. -/
theorem exists_segments_join (p : Path) :
    ∃ front, (∀ t, IsWord t → segments (join p t) = front ++ [t])
      ∧ front.filter (fun s => !isIdle s) = steps p ∧ front.Sublist (segments p) := by
  have word {t : Text} (h : IsWord t) : segments t = [t] := Text.split_of_not_mem h.2
  by_cases none : p = []
  · subst none
    exact ⟨[], fun t h => by simp [word h], rfl, List.nil_sublist _⟩
  by_cases slash : Text.endsIn '/' p = true
  · obtain ⟨q, rfl⟩ : ∃ q, p = q ++ ['/'] := by
      exact List.getLast?_eq_some_iff.1 (by simpa [Text.endsIn] using slash)
    have idle : segments (q ++ ['/']) = segments q ++ [[]] := Text.split_append_cons '/' q []
    refine ⟨segments q, fun t h => ?_, ?_, idle ▸ List.sublist_append_left _ _⟩
    · have joined : join (q ++ ['/']) t = q ++ '/' :: t := by
        simp [join, h.not_absolute, slash]
      rw [joined, segments, Text.split_append_cons]
      exact congrArg _ (word h)
    · rw [steps, idle, List.filter_append]
      simp [isIdle]
  · refine ⟨segments p, fun t h => ?_, rfl, List.Sublist.refl _⟩
    have joined : join p t = p ++ '/' :: t := by
      simp [join, h.not_absolute, none, slash]
    rw [joined, segments, Text.split_append_cons]
    exact congrArg _ (word h)

/-- A word that is joined to a path is its last segment. -/
theorem segments_join (p : Path) {t : Text} (h : IsWord t) :
    ∃ front, segments (join p t) = front ++ [t] ∧ front.filter (fun s => !isIdle s) = steps p
      ∧ front.Sublist (segments p) := by
  obtain ⟨front, segs, idle, part⟩ := exists_segments_join p
  exact ⟨front, segs t h, idle, part⟩

theorem steps_join (p : Path) {t : Text} (h : IsWord t) :
    steps (join p t) = steps p ++ [t].filter fun s => !isIdle s := by
  obtain ⟨front, segs, idle, _⟩ := segments_join p h
  rw [steps, segs, List.filter_append, idle]

theorem isAbsolute_join (p : Path) {t : Text} (h : IsWord t) :
    isAbsolute (join p t) = isAbsolute p := by
  have relative := h.not_absolute
  unfold join
  rw [if_neg (by simp [relative])]
  cases p with
  | nil => exact relative
  | cons c p =>
    split <;> rfl

/-- The path as it stands in front of what is joined to it. -/
def slashed (p : Path) : Path := if p = [] ∨ Text.endsIn '/' p then p else p ++ ['/']

theorem join_eq_slashed {q : Path} (relative : isAbsolute q = false) (p : Path) :
    join p q = slashed p ++ q := by
  rw [join, if_neg (by simp [relative]), slashed]
  split
  · rfl
  · rw [List.append_assoc]
    rfl

theorem slashed_append {q : Path} (some : q ≠ []) (p : Path) : slashed (p ++ q) = p ++ slashed q := by
  have last : Text.endsIn '/' (p ++ q) = Text.endsIn '/' q := by
    simp only [Text.endsIn, List.getLast?_append, List.getLast?_eq_some_getLast some, Option.some_or]
  simp only [slashed, last, List.append_eq_nil_iff, some, and_false, false_or]
  split
  · rfl
  · rw [List.append_assoc]

theorem slashed_slashed (p : Path) : slashed (slashed p) = slashed p := by
  by_cases ends : p = [] ∨ Text.endsIn '/' p = true
  · have same : slashed p = p := if_pos ends
    rw [same, same]
  · have added : slashed p = p ++ ['/'] := if_neg ends
    rw [added, slashed_append (List.cons_ne_nil _ _)]
    rfl

/-- A word may be joined to the last part of a path before the path is joined. -/
theorem join_join (p q : Path) {t : Text} (h : IsWord t) :
    join p (join q t) = join (join p q) t := by
  have relative := h.not_absolute
  by_cases absolute : isAbsolute q = true
  · rw [join_absolute ((isAbsolute_join q h).trans absolute), join_absolute absolute]
  have plain : isAbsolute q = false := by simpa using absolute
  rw [join_eq_slashed ((isAbsolute_join q h).trans plain), join_eq_slashed relative,
    join_eq_slashed relative, join_eq_slashed plain, ← List.append_assoc]
  congr 1
  by_cases none : q = []
  · rw [none, List.append_nil, slashed_slashed]
    exact List.append_nil _
  · rw [slashed_append none]

/-- A path that something can be put behind with a slash between. -/
def IsOpen (p : Path) : Prop := p ≠ [] ∧ Text.endsIn '/' p = false

theorem isOpen_join (p : Path) {t : Text} (h : IsWord t) : IsOpen (join p t) := by
  have last : ∀ front : Text, Text.endsIn '/' (front ++ t) = false := by
    intro front
    obtain ⟨c, eq⟩ := Option.ne_none_iff_exists'.1 (mt List.getLast?_eq_none_iff.1 h.1)
    have ne := h.getLast?_ne
    rw [eq] at ne
    simpa [Text.endsIn, eq] using ne
  have shape : ∃ front, join p t = front ++ t := by
    unfold join
    rw [if_neg (by simp [h.not_absolute])]
    split
    · exact ⟨p, rfl⟩
    · exact ⟨p ++ ['/'], by simp⟩
  obtain ⟨front, eq⟩ := shape
  rw [eq]
  exact ⟨by simp [h.1], last front⟩

theorem segments_join_of_isOpen {p : Path} (hp : IsOpen p) {t : Text} (h : IsWord t) :
    segments (join p t) = segments p ++ [t] := by
  have joined : join p t = p ++ '/' :: t := by
    simp [join, h.not_absolute, hp.1, hp.2]
  rw [joined, segments, Text.split_append_cons]
  exact congrArg _ (Text.split_of_not_mem h.2)

/-! ## Joining several words -/

theorem steps_foldl_join {ts : List Text} (h : ∀ t ∈ ts, IsWord t) (p : Path) :
    steps (ts.foldl join p) = steps p ++ ts.filter fun s => !isIdle s := by
  induction ts generalizing p with
  | nil => simp
  | cons t ts ih =>
    rw [List.foldl_cons, ih (fun t' ht => h t' (List.mem_cons_of_mem _ ht)),
      steps_join p (h t List.mem_cons_self), List.append_assoc, ← List.filter_append]
    rfl

theorem isAbsolute_foldl_join {ts : List Text} (h : ∀ t ∈ ts, IsWord t) (p : Path) :
    isAbsolute (ts.foldl join p) = isAbsolute p := by
  induction ts generalizing p with
  | nil => rfl
  | cons t ts ih =>
    rw [List.foldl_cons, ih (fun t' ht => h t' (List.mem_cons_of_mem _ ht)),
      isAbsolute_join p (h t List.mem_cons_self)]

theorem segments_foldl_join_of_isOpen {ts : List Text} (h : ∀ t ∈ ts, IsWord t) {p : Path}
    (hp : IsOpen p) : segments (ts.foldl join p) = segments p ++ ts := by
  induction ts generalizing p with
  | nil => simp
  | cons t ts ih =>
    have word := h t List.mem_cons_self
    rw [List.foldl_cons, ih (fun t' ht => h t' (List.mem_cons_of_mem _ ht)) (isOpen_join p word),
      segments_join_of_isOpen hp word, List.append_assoc]
    rfl

/-- Words that are joined to a path are its last segments. -/
theorem segments_foldl_join {ts : List Text} (h : ∀ t ∈ ts, IsWord t) (some : ts ≠ []) (p : Path) :
    ∃ front, segments (ts.foldl join p) = front ++ ts
      ∧ front.filter (fun s => !isIdle s) = steps p ∧ front.Sublist (segments p) := by
  cases ts with
  | nil => exact absurd rfl some
  | cons t ts =>
    have word := h t List.mem_cons_self
    obtain ⟨front, segs, idle⟩ := segments_join p word
    refine ⟨front, ?_, idle⟩
    rw [List.foldl_cons, segments_foldl_join_of_isOpen
      (fun t' ht => h t' (List.mem_cons_of_mem _ ht)) (isOpen_join p word), segs, List.append_assoc]
    rfl

/-! ## Components -/

/-- The components of a path behind the one that says where it starts. -/
def inner (p : Path) : List Component := (segments p).filterMap component?

/-- The component that says where a path starts, if there is one. -/
def front (p : Path) : List Component :=
  if isAbsolute p then [.root]
  else if (segments p).head? = some ['.'] then [.here]
  else []

theorem components_eq (p : Path) : components p = front p ++ inner p := by
  unfold components front
  split
  · rfl
  · split <;> rfl

theorem component?_eq_none_iff {s : Text} : component? s = none ↔ isIdle s = true := by
  unfold component?
  split
  · rename_i idle
    simp [idle]
  · split <;> simp_all

theorem text_of_component? {s : Text} {c : Component} (h : component? s = some c) : c.text = s := by
  unfold component? at h
  split at h
  · simp at h
  · split at h
    · rename_i up
      obtain rfl := Option.some.inj h
      exact up.symm
    · obtain rfl := Option.some.inj h
      rfl

private theorem map_text_filterMap (ss : List Text) :
    (ss.filterMap component?).map Component.text = ss.filter fun s => !isIdle s := by
  induction ss with
  | nil => rfl
  | cons s ss ih =>
    cases hs : component? s with
    | none =>
      have idle := component?_eq_none_iff.1 hs
      simp [hs, idle, ih]
    | some c =>
      have step : isIdle s = false := Bool.eq_false_iff.2 fun idle => by
        simp [component?_eq_none_iff.2 idle] at hs
      simp [hs, step, ih, text_of_component? hs]

/-- The components of a path inside are its steps. -/
theorem map_text_inner (p : Path) : (inner p).map Component.text = steps p :=
  map_text_filterMap (segments p)

theorem length_inner (p : Path) : (inner p).length = (steps p).length := by
  rw [← map_text_inner, List.length_map]

theorem not_idle_of_mem_steps {p : Path} {s : Text} (h : s ∈ steps p) : isIdle s = false := by
  simpa using (List.mem_filter.1 h).2

theorem isWord_of_mem_steps {p : Path} {s : Text} (h : s ∈ steps p) : IsWord s := by
  refine ⟨?_, Text.not_mem_of_mem_split (List.mem_filter.1 h).1⟩
  rintro rfl
  simpa [isIdle] using not_idle_of_mem_steps h

private theorem filterMap_filter (ss : List Text) :
    (ss.filter fun s => !isIdle s).filterMap component? = ss.filterMap component? := by
  induction ss with
  | nil => rfl
  | cons s ss ih =>
    cases idle : isIdle s with
    | true => simp [idle, component?_eq_none_iff.2 idle, ih]
    | false => simp [idle, List.filterMap_cons, ih]

theorem head?_segments_append_slash (p q : Path) :
    (segments (p ++ '/' :: q)).head? = (segments p).head? := by
  obtain ⟨first, more, eq⟩ := List.exists_cons_of_ne_nil (Text.split_ne_nil '/' p)
  rw [segments, segments, Text.split_append_cons, eq]
  rfl

/-- Where a path starts does not change with a step that is joined to it. -/
theorem front_join (p : Path) {t : Text} (h : IsWord t) (step : isIdle t = false) :
    front (join p t) = front p := by
  have heads : (segments (join p t)).head? = some ['.'] ↔ (segments p).head? = some ['.'] := by
    by_cases none : p = []
    · subst none
      have word : segments t = [t] := Text.split_of_not_mem h.2
      have notHere : t ≠ ['.'] := by
        rintro rfl
        simp [isIdle] at step
      rw [join_empty, word]
      simp [notHere, segments, Text.split]
    by_cases slash : Text.endsIn '/' p = true
    · obtain ⟨q, rfl⟩ : ∃ q, p = q ++ ['/'] := by
        exact List.getLast?_eq_some_iff.1 (by simpa [Text.endsIn] using slash)
      have joined : join (q ++ ['/']) t = q ++ '/' :: t := by
        simp [join, h.not_absolute, slash]
      rw [joined, head?_segments_append_slash, head?_segments_append_slash]
    · have joined : join p t = p ++ '/' :: t := by
        simp [join, h.not_absolute, none, slash]
      rw [joined, head?_segments_append_slash]
  simp only [front, isAbsolute_join p h, heads]

/-- Absolute paths are the same exactly if they take the same steps. -/
theorem same_iff_steps {p q : Path} (absolute : isAbsolute p = true)
    (absolute' : isAbsolute q = true) : same p q = true ↔ steps p = steps q := by
  have parts (p : Path) (absolute : isAbsolute p = true) : components p = .root :: inner p := by
    simp [components_eq, front, absolute]
  rw [same, decide_eq_true_iff, parts p absolute, parts q absolute', List.cons_inj_right]
  constructor
  · intro eq
    rw [← map_text_inner, ← map_text_inner, eq]
  · intro eq
    rw [inner, inner, ← filterMap_filter, ← filterMap_filter (segments q)]
    exact congrArg _ eq

/-- Joining a name to a path adds one component behind the others. -/
theorem components_join (p : Path) {t : Text} (h : IsWord t) (step : isIdle t = false)
    (notUp : t ≠ ['.', '.']) : components (join p t) = components p ++ [.name t] := by
  obtain ⟨before, segs, idle, _⟩ := segments_join p h
  have last : component? t = some (.name t) := by
    simp [component?, step, notUp]
  rw [components_eq, components_eq, front_join p h step, List.append_assoc]
  congr 1
  rw [inner, segs, List.filterMap_append, ← filterMap_filter before, idle, steps, filterMap_filter,
    inner]
  simp [last]

end Path

end Scaffold
