import Scaffold.Proofs.Path.Steps

/-!
# The ancestors of a path

The paths that are made on the way to a path form a chain: each is of one kind with the
path, absolute or relative, and leads along its steps without the last one of the path
before. A chain ends where no step is left, perhaps with a dot. The parent of a path that
ends in a step leads along the steps in front of it, and it ends in a step as well.
-/

namespace Scaffold

namespace Path

open FileSystem (ancestors segmentsWithoutEnd)

/-- Paths that lead along `ss`, along `ss` without its last step, and so on. -/
inductive Chain (absolute : Bool) : List Path → List Text → Prop
  | start : Chain absolute [] []
  | step {p : Path} {above : List Path} {ss : List Text} (kind : isAbsolute p = absolute)
      (leads : steps p = ss) (more : Chain absolute above ss.dropLast) :
      Chain absolute (p :: above) ss

/-- Each path of a chain leads along a front part of the steps. -/
theorem Chain.mem {absolute : Bool} {paths : List Path} {ss : List Text} {p : Path}
    (h : Chain absolute paths ss) (mem : p ∈ paths) :
    isAbsolute p = absolute ∧ steps p <+: ss := by
  induction h with
  | start => simp at mem
  | step kind leads _ ih =>
    rcases List.mem_cons.1 mem with rfl | mem
    · exact ⟨kind, leads ▸ List.prefix_rfl⟩
    · obtain ⟨same, front⟩ := ih mem
      exact ⟨same, front.trans (List.dropLast_prefix _)⟩

private theorem isWord_of_mem_texts {p : Path} {n : Nat} {t : Text}
    (h : t ∈ ((inner p).take n).map Component.text) : IsWord t := by
  rw [List.map_take, map_text_inner] at h
  exact isWord_of_mem_steps (List.mem_of_mem_take h)

private theorem ofComponents_append (a b : List Component) :
    ofComponents (a ++ b) = (b.map Component.text).foldl join (ofComponents a) := by
  rw [ofComponents, List.foldl_append, List.foldl_map]
  rfl

private theorem steps_ofComponents_front (p : Path) : steps (ofComponents (front p)) = [] := by
  unfold front
  split
  · rfl
  · split <;> rfl

private theorem isAbsolute_ofComponents_front (p : Path) :
    isAbsolute (ofComponents (front p)) = isAbsolute p := by
  unfold front
  split
  · rename_i absolute
    rw [absolute]
    rfl
  · rename_i relative
    rw [Bool.eq_false_iff.2 relative]
    split <;> rfl

private theorem isAbsolute_ofComponents (p : Path) (n : Nat) :
    isAbsolute (ofComponents (front p ++ (inner p).take n)) = isAbsolute p := by
  rw [ofComponents_append, isAbsolute_foldl_join fun _ => isWord_of_mem_texts,
    isAbsolute_ofComponents_front]

/-- The plainest path of a front part of the components leads along as many steps. -/
private theorem steps_ofComponents (p : Path) (n : Nat) :
    steps (ofComponents (front p ++ (inner p).take n)) = (steps p).take n := by
  have all : ((inner p).take n).map Component.text = (steps p).take n := by
    rw [List.map_take, map_text_inner]
  have keep : ((steps p).take n).filter (fun s => !isIdle s) = (steps p).take n := by
    apply List.filter_eq_self.2
    intro s hs
    simp [not_idle_of_mem_steps (List.mem_of_mem_take hs)]
  rw [ofComponents_append, steps_foldl_join fun _ => isWord_of_mem_texts, all, keep,
    steps_ofComponents_front, List.nil_append]

private theorem not_root_of_mem_inner {p : Path} {c : Component} (h : c ∈ inner p) : c ≠ .root := by
  obtain ⟨s, _, hs⟩ := List.mem_filterMap.1 h
  rintro rfl
  unfold component? at hs
  split at hs
  · simp at hs
  · split at hs <;> simp at hs

/-- The paths that lead along `k - 1`, `k - 2`, … steps, down to `low`. -/
private def shorter (p : Path) (low : Nat) : Nat → List Path
  | 0 => []
  | k + 1 =>
    if k < low then []
    else ofComponents (front p ++ (inner p).take k) :: shorter p low k

private theorem chain_shorter {p : Path} {low : Nat} (short : low ≤ 1) {k : Nat}
    (h : k ≤ (steps p).length) :
    Chain (isAbsolute p) (shorter p low k) ((steps p).take (k - 1)) := by
  induction k with
  | zero => exact .start
  | succ k ih =>
    rw [shorter, Nat.add_sub_cancel]
    split
    · have none : k = 0 := by omega
      subst none
      exact .start
    · refine .step (isAbsolute_ofComponents p k) (steps_ofComponents p k) ?_
      rw [List.dropLast_take (by omega)]
      exact ih (by omega)

/-- The paths of the front parts of some components, the longest first. -/
private def fronts (parts : List Component) (k : Nat) : List Path :=
  (((List.range k).reverse.map fun n => parts.take (n + 1)).filter (· ≠ [.root])).map ofComponents

private theorem fronts_succ (parts : List Component) (k : Nat) :
    fronts parts (k + 1) = if parts.take (k + 1) = [.root] then fronts parts k
      else ofComponents (parts.take (k + 1)) :: fronts parts k := by
  simp only [fronts, List.range_succ, List.reverse_append, List.reverse_cons, List.reverse_nil,
    List.nil_append, List.singleton_append, List.map_cons]
  by_cases root : parts.take (k + 1) = [.root] <;> simp [root]

private theorem fronts_here {p : Path} (h : front p = [.here]) (k : Nat) :
    fronts (.here :: inner p) k = shorter p 0 k := by
  induction k with
  | zero => rfl
  | succ k ih => simp [fronts_succ, shorter, ih, h]

private theorem fronts_root {p : Path} (h : front p = [.root]) {k : Nat}
    (le : k ≤ (inner p).length) : fronts (.root :: inner p) k = shorter p 1 k := by
  induction k with
  | zero => rfl
  | succ k ih =>
    have shorter := ih (by omega)
    rw [fronts_succ, Path.shorter, shorter, h]
    by_cases first : k = 0
    · subst first
      simp [Path.shorter]
    · have some : (inner p).take k ≠ [] := by
        intro none
        have length := congrArg List.length none
        rw [List.length_take, List.length_nil] at length
        omega
      simp [some, first]

private theorem fronts_plain {p : Path} (h : front p = []) {k : Nat}
    (le : k ≤ (inner p).length) : fronts (inner p) k = shorter p 1 (k + 1) := by
  induction k with
  | zero => rfl
  | succ k ih =>
    have notRoot : (inner p).take (k + 1) ≠ [.root] := by
      intro root
      have mem : Component.root ∈ (inner p).take (k + 1) := root ▸ List.mem_cons_self
      exact not_root_of_mem_inner (List.mem_of_mem_take mem) rfl
    have next : shorter p 1 (k + 2)
        = ofComponents ((inner p).take (k + 1)) :: shorter p 1 (k + 1) := by
      rw [shorter, if_neg (by omega), h, List.nil_append]
    rw [fronts_succ, if_neg notRoot, ih (by omega), next]

private theorem front_kinds (p : Path) : front p = [.root] ∨ front p = [.here] ∨ front p = [] := by
  unfold front
  split
  · exact .inl rfl
  · split
    · exact .inr (.inl rfl)
    · exact .inr (.inr rfl)

private theorem ancestors_list (p : Path) :
    ancestors p = if components p = [] ∨ components p = [.root] then []
      else p :: fronts (components p) ((components p).length - 1) := rfl

/-- The ancestors of a path are the path and the plainest paths of its front parts, with
the dot alone where the path starts with it. -/
private theorem ancestors_eq (p : Path) : (ancestors p = [] ∧ inner p = [])
    ∨ ∃ low, low ≤ 1 ∧ (low = 0 → front p = [.here])
      ∧ ancestors p = p :: shorter p low (inner p).length := by
  rw [ancestors_list, components_eq p]
  rcases front_kinds p with kind | kind | kind
  · rw [kind]
    by_cases none : inner p = []
    · exact .inl ⟨if_pos (by simp [none]), none⟩
    · refine .inr ⟨1, by decide, by simp, ?_⟩
      rw [if_neg (by simp [none])]
      simp [fronts_root kind]
  · refine .inr ⟨0, by decide, fun _ => kind, ?_⟩
    rw [kind, if_neg (by simp)]
    simp [fronts_here kind]
  · rw [kind]
    by_cases none : inner p = []
    · exact .inl ⟨if_pos (by simp [none]), none⟩
    · have notRoot : inner p ≠ [.root] := fun root =>
        not_root_of_mem_inner (root ▸ List.mem_cons_self) rfl
      obtain ⟨n, length⟩ := Nat.exists_eq_succ_of_ne_zero (mt List.length_eq_zero_iff.1 none)
      refine .inr ⟨1, by decide, by simp, ?_⟩
      rw [List.nil_append, if_neg (by simp [none, notRoot]), length, Nat.succ_sub_one,
        fronts_plain kind (by omega)]

/-- The ancestors of a path form a chain along its steps. -/
theorem chain_ancestors (p : Path) : Chain (isAbsolute p) (ancestors p) (steps p) := by
  have count := length_inner p
  rcases ancestors_eq p with ⟨list, none⟩ | ⟨low, short, _, list⟩
  · have short : steps p = [] := by rw [← map_text_inner, none, List.map_nil]
    rw [list, short]
    exact .start
  · rw [list]
    refine .step rfl rfl ?_
    rw [List.dropLast_eq_take, ← count]
    exact chain_shorter short (Nat.le_of_eq count)

/-- A path on the way to another one that is not on the way to a front part of it goes on
behind that part. -/
theorem exists_steps_behind {p c : Path} {front names : List Text}
    (along : steps c = front ++ names) (mem : p ∈ ancestors c) (notAbove : ¬ steps p <+: front) :
    ∃ more, more ≠ [] ∧ more <+: names ∧ steps p = front ++ more := by
  have part : steps p <+: front ++ names := along ▸ ((chain_ancestors c).mem mem).2
  obtain ⟨more, behind⟩ :=
    (List.prefix_or_prefix_of_prefix part (List.prefix_append front names)).resolve_left notAbove
  refine ⟨more, ?_, ?_, behind.symm⟩
  · rintro rfl
    exact notAbove ⟨[], by rw [← behind, List.append_nil, List.append_nil]⟩
  · rwa [← behind, List.prefix_append_right_inj] at part

private theorem mem_shorter {p a : Path} {low k : Nat} (h : a ∈ shorter p low k) :
    ∃ j, low ≤ j ∧ j < k ∧ a = ofComponents (front p ++ (inner p).take j) := by
  induction k with
  | zero => simp [shorter] at h
  | succ k ih =>
    rw [shorter] at h
    split at h
    · simp at h
    · rcases List.mem_cons.1 h with rfl | mem
      · exact ⟨k, by omega, by omega, rfl⟩
      · obtain ⟨j, least, most, eq⟩ := ih mem
        exact ⟨j, least, by omega, eq⟩

theorem isAbsolute_eq (p : Path) :
    isAbsolute p = (decide (p ≠ []) && decide ((segments p).head? = some [])) := by
  cases p with
  | nil => rfl
  | cons c p =>
    by_cases slash : c = '/'
    · simp [isAbsolute, segments, Text.split, slash]
    · cases pieces : Text.split '/' p with
      | nil => exact absurd pieces (Text.split_ne_nil '/' p)
      | cons piece more => simp [isAbsolute, segments, Text.split, slash, pieces]

/-- A relative path that is not empty is among those that are made on the way to it. -/
theorem ancestors_ne_nil {p : Path} (some : p ≠ []) (relative : isAbsolute p = false) :
    ancestors p ≠ [] := by
  have parts : components p ≠ [] ∧ components p ≠ [.root] := by
    rw [components_eq, front, if_neg (by simp [relative])]
    split
    · simp
    · rename_i notHere
      cases segs : segments p with
      | nil => exact absurd segs (Text.split_ne_nil '/' p)
      | cons s more =>
        rw [isAbsolute_eq] at relative
        have step : isIdle s = false := by
          simp only [segs, List.head?_cons, Option.some.injEq] at notHere relative
          simpa [some, isIdle, notHere] using relative
        have first : ∃ c, component? s = Option.some c := by
          cases found : component? s with
          | none => simp [component?_eq_none_iff.1 found] at step
          | some c => exact ⟨c, rfl⟩
        obtain ⟨c, found⟩ := first
        have mem : c ∈ inner p := List.mem_filterMap.2 ⟨s, segs ▸ List.mem_cons_self, found⟩
        refine ⟨fun none => ?_, fun root => ?_⟩
        · rw [List.nil_append] at none
          simp [none] at mem
        · rw [List.nil_append] at root
          exact not_root_of_mem_inner (root ▸ List.mem_cons_self) rfl
  rw [ancestors_list, if_neg (by simp [parts])]
  simp

theorem ne_nil_of_mem_ancestors {p a : Path} (h : a ∈ ancestors p) : a ≠ [] := by
  rcases ancestors_eq p with ⟨list, _⟩ | ⟨low, _, here, list⟩
  · simp [list] at h
  rw [list] at h
  rcases List.mem_cons.1 h with rfl | mem
  · rintro rfl
    simp [ancestors] at list
  obtain ⟨j, least, most, rfl⟩ := mem_shorter mem
  intro none
  have length := congrArg List.length (steps_ofComponents p j)
  rw [none, steps_nil, List.length_take, ← length_inner, List.length_nil] at length
  have zero : j = 0 := by omega
  rw [zero, here (by omega)] at none
  simp [ofComponents, Component.text] at none

/-- Words behind the front of a path are all of its segments, but for an idle one that the
path starts with too. -/
private theorem segments_foldl_front {p : Path} {ts : List Text} (words : ∀ t ∈ ts, IsWord t)
    (some : ts = [] → front p = [.here]) :
    segments (ts.foldl join (ofComponents (front p))) = ts
      ∨ ∃ first more, segments p = first :: more ∧ isIdle first = true
        ∧ segments (ts.foldl join (ofComponents (front p))) = first :: ts := by
  unfold front at some ⊢
  split
  · rename_i absolute
    right
    rw [isAbsolute_eq, Bool.and_eq_true, decide_eq_true_eq, decide_eq_true_eq] at absolute
    obtain ⟨more, segs⟩ := List.head?_eq_some_iff.1 absolute.2
    refine ⟨[], more, segs, rfl, ?_⟩
    cases ts with
    | nil => simp_all [isAbsolute_eq]
    | cons t ts =>
      have word := words t List.mem_cons_self
      have joined : join (ofComponents [.root]) t = '/' :: t := by
        have slash : ofComponents [.root] = ['/'] := rfl
        simp [slash, join, word.not_absolute, Text.endsIn]
      have base : segments (join (ofComponents [.root]) t) = [[], t] := by
        rw [joined, segments, Text.split, if_pos rfl, Text.split_of_not_mem word.2]
      rw [List.foldl_cons, segments_foldl_join_of_isOpen
        (fun t' ht => words t' (List.mem_cons_of_mem _ ht)) (isOpen_join _ word), base]
      rfl
  · split
    · rename_i here
      right
      obtain ⟨more, segs⟩ := List.head?_eq_some_iff.1 here
      refine ⟨['.'], more, segs, rfl, ?_⟩
      exact segments_foldl_join_of_isOpen words ⟨by simp [ofComponents, Component.text], rfl⟩
    · left
      cases ts with
      | nil => simp_all
      | cons t ts =>
        have word := words t List.mem_cons_self
        have base : segments (join (ofComponents []) t) = [t] := by
          rw [show join (ofComponents []) t = t from join_empty t]
          exact Text.split_of_not_mem word.2
        rw [List.foldl_cons, segments_foldl_join_of_isOpen
          (fun t' ht => words t' (List.mem_cons_of_mem _ ht)) (isOpen_join _ word), base]
        rfl

/-- An ancestor has some of the segments of the path, in order. -/
theorem segments_sublist_of_mem_ancestors {p a : Path} (h : a ∈ ancestors p) :
    (segments a).Sublist (segments p) := by
  rcases ancestors_eq p with ⟨list, _⟩ | ⟨low, _, here, list⟩
  · simp [list] at h
  rw [list] at h
  rcases List.mem_cons.1 h with rfl | mem
  · exact List.Sublist.refl _
  obtain ⟨j, least, most, rfl⟩ := mem_shorter mem
  have words : ∀ t ∈ ((inner p).take j).map Component.text, IsWord t := fun t => isWord_of_mem_texts
  have names : (((inner p).take j).map Component.text).Sublist (steps p) := by
    rw [← map_text_inner]
    exact (List.take_sublist j _).map _
  have some : ((inner p).take j).map Component.text = [] → front p = [.here] := by
    intro none
    have length := congrArg List.length none
    rw [List.length_map, List.length_take, List.length_nil] at length
    exact here (by omega)
  rw [ofComponents_append]
  rcases segments_foldl_front words some with segs | ⟨first, more, whole, idle, segs⟩
  · rw [segs]
    exact names.trans List.filter_sublist
  · rw [segs, whole]
    rw [steps, whole, List.filter_cons_of_neg (by simp [idle])] at names
    exact (names.trans List.filter_sublist).cons_cons first

/-- Behind the last step of a path, if there is one, stand at most slashes. -/
def EndsInStep (p : Path) : Prop :=
  steps p = [] ∨ ∃ front last, segmentsWithoutEnd p = front ++ [last] ∧ isIdle last = false

theorem endsInStep_of_segments {p : Path} {front : List Text} {last : Text}
    (segs : segments p = front ++ [last]) (step : isIdle last = false) : EndsInStep p := by
  have some : last ≠ [] := by
    rintro rfl
    simp [isIdle] at step
  refine .inr ⟨front, last, ?_, step⟩
  rw [segmentsWithoutEnd, segs, List.reverse_append, List.reverse_singleton,
    List.singleton_append, List.dropWhile_cons_of_neg (by simpa using some)]
  simp

/-- The ancestors of such a path are such paths. -/
theorem EndsInStep.of_mem_ancestors {p a : Path} (h : EndsInStep p) (mem : a ∈ ancestors p) :
    EndsInStep a := by
  rcases ancestors_eq p with ⟨list, _⟩ | ⟨low, _, _, list⟩
  · simp [list] at mem
  rw [list] at mem
  rcases List.mem_cons.1 mem with rfl | mem
  · exact h
  obtain ⟨j, _, _, rfl⟩ := mem_shorter mem
  have texts : ((inner p).take j).map Component.text = (steps p).take j := by
    rw [List.map_take, map_text_inner]
  cases ending : ((steps p).take j).getLast? with
  | none => exact .inl ((steps_ofComponents p j).trans (List.getLast?_eq_none_iff.1 ending))
  | some last =>
  obtain ⟨before, parts⟩ := List.getLast?_eq_some_iff.1 ending
  have step : isIdle last = false := by
    have mem : last ∈ (steps p).take j := by simp [parts]
    exact not_idle_of_mem_steps (List.mem_of_mem_take mem)
  have words : ∀ t ∈ ((inner p).take j).map Component.text, IsWord t := fun t => isWord_of_mem_texts
  rw [ofComponents_append]
  rw [texts, parts] at words ⊢
  rcases segments_foldl_front (p := p) words (by simp) with segs | ⟨first, _, _, _, segs⟩
  · exact endsInStep_of_segments segs step
  · rw [← List.cons_append] at segs
    exact endsInStep_of_segments segs step

/-! ## The parent -/

private theorem filter_dropWhile_isIdle (ss : List Text) :
    (ss.dropWhile isIdle).filter (fun s => !isIdle s) = ss.filter fun s => !isIdle s := by
  induction ss with
  | nil => rfl
  | cons s ss ih =>
    by_cases idle : isIdle s = true
    · rw [List.dropWhile_cons_of_pos idle, ih]
      simp [idle]
    · rw [List.dropWhile_cons_of_neg idle]

/-- Segments that are put together again are the segments of a path, unless a single
empty one is meant for the root. -/
theorem segments_joinWith {kept : List Text} (some : kept ≠ [])
    (noSlash : ∀ s ∈ kept, '/' ∉ s) : segments (Text.joinWith '/' kept) = kept := by
  induction kept with
  | nil => exact absurd rfl some
  | cons s kept ih =>
    have first : segments s = [s] := Text.split_of_not_mem (noSlash s List.mem_cons_self)
    cases kept with
    | nil => exact first
    | cons s' kept =>
      have others := ih (by simp) fun t ht => noSlash t (List.mem_cons_of_mem _ ht)
      rw [Text.joinWith, segments, Text.split_append_cons]
      exact congr (congrArg _ first) others

/-! What is left of segments when the idle ones at their end are dropped. -/

private theorem filter_dropEnd (ss : List Text) :
    ((ss.reverse.dropWhile isIdle).reverse).filter (fun s => !isIdle s)
      = ss.filter fun s => !isIdle s := by
  rw [List.filter_reverse, filter_dropWhile_isIdle, List.filter_reverse, List.reverse_reverse]

private theorem dropEnd_sublist (ss : List Text) :
    (ss.reverse.dropWhile isIdle).reverse.Sublist ss := by
  simpa using (List.dropWhile_sublist isIdle (l := ss.reverse)).reverse

private theorem dropEnd_cases (ss : List Text) : ss.reverse.dropWhile isIdle = []
    ∨ ∃ front last, (ss.reverse.dropWhile isIdle).reverse = front ++ [last]
      ∧ isIdle last = false := by
  cases left : ss.reverse.dropWhile isIdle with
  | nil => exact .inl rfl
  | cons last above =>
    have stop := List.head?_dropWhile_not isIdle ss.reverse
    rw [left] at stop
    exact .inr ⟨above.reverse, last, List.reverse_cons, by simpa using stop⟩

private theorem head?_dropEnd {first : Text} (busy : isIdle first = false) (more : List Text) :
    ((first :: more).reverse.dropWhile isIdle).reverse.head? = some first := by
  have stays : (more.reverse ++ [first]).dropWhile isIdle
      = more.reverse.dropWhile isIdle ++ [first] := by
    rw [List.dropWhile_append]
    split
    · rename_i none
      simp [busy, List.isEmpty_iff.1 none]
    · rfl
  rw [List.head?_reverse, List.reverse_cons, stays, List.getLast?_append, List.getLast?_singleton,
    Option.some_or]

private theorem parent?_eq {c : Path} {first last : Text} {more : List Text}
    (segs : segments c = first :: more ++ [last]) (step : isIdle last = false) :
    ∃ kept : List Text, parent? c = some (if kept = [[]] then ['/'] else Text.joinWith '/' kept)
      ∧ kept.head? = some first ∧ kept.Sublist (first :: more)
      ∧ kept.filter (fun s => !isIdle s) = ((first :: more).filter fun s => !isIdle s)
      ∧ (kept.filter (fun s => !isIdle s) = []
        ∨ ∃ front last, kept = front ++ [last] ∧ isIdle last = false) := by
  rw [List.cons_append] at segs
  by_cases idle : isIdle first = true
  · refine ⟨first :: (more.reverse.dropWhile isIdle).reverse, ?_, rfl,
      (dropEnd_sublist more).cons_cons _, ?_, ?_⟩
    · simp [parent?, segs, idle, step]
    · rw [List.filter_cons, List.filter_cons, filter_dropEnd]
    · rcases dropEnd_cases more with none | ⟨front, last, parts, step⟩
      · exact .inl (by simp [none, idle])
      · exact .inr ⟨first :: front, last, by rw [parts, List.cons_append], step⟩
  · refine ⟨((first :: more).reverse.dropWhile isIdle).reverse, ?_,
      head?_dropEnd (by simpa using idle) more, dropEnd_sublist _, filter_dropEnd _,
      (dropEnd_cases _).imp_left fun none => by rw [none]; rfl⟩
    simp [parent?, segs, idle, step]

theorem ne_nil_of_segments {c : Path} {before : List Text} {last : Text}
    (segs : segments c = before ++ [last]) (some : last ≠ []) : c ≠ [] := by
  rintro rfl
  cases before with
  | nil => exact some (List.cons.inj segs).1.symm
  | cons s before =>
    have length := congrArg List.length segs
    simp [segments] at length

/-- The parent of a path that ends in a step leads along the steps in front of it, over
segments of the path. -/
theorem exists_parent {c : Path} {before : List Text} {last : Text}
    (segs : segments c = before ++ [last]) (step : isIdle last = false) :
    ∃ q, parent? c = some q ∧ isAbsolute q = isAbsolute c
      ∧ steps q = (before.filter fun s => !isIdle s) ∧ EndsInStep q
      ∧ ∀ a ∈ ancestors q, (segments a).Sublist (segments c) := by
  have word : last ≠ [] := by
    rintro rfl
    simp [isIdle] at step
  have some := ne_nil_of_segments segs word
  cases before with
  | nil =>
    refine ⟨[], ?_, ?_, rfl, .inl rfl, by simp [ancestors]⟩
    · rw [List.nil_append] at segs
      simp [parent?, segs, step, Text.joinWith]
    · rw [isAbsolute_eq, isAbsolute_eq, segs]
      simp [word]
  | cons first more =>
    obtain ⟨kept, parent, head, part, filtered, ending⟩ := parent?_eq segs step
    refine ⟨_, parent, ?_⟩
    rw [isAbsolute_eq c, segs, ← filtered]
    split
    · rename_i root
      subst root
      obtain rfl : [] = first := Option.some.inj head
      refine ⟨by simp [isAbsolute, some], rfl, .inl rfl, fun a mem => ?_⟩
      simp [ancestors, components, isAbsolute, segments, Text.split, component?, isIdle] at mem
    · rename_i notRoot
      have nonempty : kept ≠ [] := by
        rintro rfl
        simp at head
      have back : segments (Text.joinWith '/' kept) = kept := by
        refine segments_joinWith nonempty fun s mem => ?_
        have mem : s ∈ segments c := segs ▸ List.mem_append_left _ (part.subset mem)
        exact Text.not_mem_of_mem_split mem
      refine ⟨?_, by rw [steps, back], ?_, fun a mem => ?_⟩
      · have joined : Text.joinWith '/' kept ≠ [] := by
          intro none
          rw [none] at back
          exact notRoot back.symm
        rw [isAbsolute_eq, back, head]
        simp [joined, some]
      · rcases ending with none | ⟨front, last, parts, step⟩
        · exact .inl (by rw [steps, back, none])
        · exact endsInStep_of_segments (back.trans parts) step
      · have above := segments_sublist_of_mem_ancestors mem
        rw [back] at above
        exact above.trans (part.trans (List.sublist_append_left _ _))

end Path

end Scaffold
