import Scaffold.Proofs.Instantiation.Harmless

/-!
# The tree that an instantiation writes

If a target is written with names alone and leads to a place that is free or an empty
directory, and if the entries of a template have paths that can stand beside each other,
then nothing is refused and the tree below the target is known exactly. `Built` says what
it holds when some parts of the plan are written: their files, and a directory for every
step on the way. Writing one more part keeps it, in whatever order they come.
-/

namespace Scaffold

namespace PlannedEntry

open FileSystem

variable {target : Path} {names more : List Text} {p : PlannedEntry}

/-- The part stands under these names behind the target. -/
structure IsAt (target : Path) (names : List Text) (p : PlannedEntry) : Prop where
  some : names ≠ []
  steps : ∀ n ∈ names, IsStep n
  path : p.path = names.foldl Path.join target

theorem IsAt.words (h : p.IsAt target names) : ∀ n ∈ names, Path.IsWord n :=
  fun n mem => (h.steps n mem).word

theorem IsAt.steps_path (h : p.IsAt target names) :
    Path.steps p.path = Path.steps target ++ names := by
  rw [h.path, Path.steps_foldl_join h.words, Instantiation.filter_steps h.steps]

theorem IsAt.isAbsolute_path (h : p.IsAt target names) :
    Path.isAbsolute p.path = Path.isAbsolute target := by
  rw [h.path, Path.isAbsolute_foldl_join h.words]

theorem IsAt.unique (h : p.IsAt target names) (h' : p.IsAt target more) : names = more :=
  List.append_cancel_left (h.steps_path.symm.trans h'.steps_path)

/-- The system takes the path of a part if it takes that of the target and it is not too
long. -/
theorem IsAt.refusal?_eq (h : p.IsAt target names) (allowed : refusal? target = none)
    (short : Text.fits maxPathLength p.path = true) : refusal? p.path = none := by
  obtain ⟨front, segs, _, part⟩ := Path.segments_foldl_join h.words h.some target
  rw [← h.path] at segs
  have noNul : '\x00' ∉ p.path := by
    intro nul
    obtain ⟨piece, mem, inside⟩ := Text.exists_mem_split nul (by decide)
    rw [← Path.segments, segs] at mem
    rcases List.mem_append.1 mem with mem | mem
    · have found := Text.mem_of_mem_split (part.subset mem) inside
      exact (refusal?_eq_none_iff.1 allowed).1 found
    · exact (h.steps piece mem).noNul inside
  have nonempty : p.path ≠ [] := by
    intro none
    have steps := h.steps_path
    rw [none, Path.steps_nil] at steps
    simp [h.some] at steps
  exact refusal?_eq_none_iff.2 ⟨noNul, nonempty, short⟩

/-- The part stands under these names behind the target, and nothing is too long. -/
structure FitsAt (target : Path) (names : List Text) (p : PlannedEntry) : Prop
    extends IsAt target names p where
  allowed : refusal? p.path = none
  fits : ∀ n ∈ names, Text.fits maxNameLength n = true

theorem FitsAt.plain (h : p.FitsAt target names) : ∀ n ∈ names, IsPlainName n :=
  fun n mem => ⟨(h.steps n mem).notIdle, (h.steps n mem).notUp, h.fits n mem⟩

theorem FitsAt.endsInStep (h : p.FitsAt target names) : Path.EndsInStep p.path := by
  obtain ⟨front, segs, _⟩ := Path.segments_foldl_join h.words h.some target
  rw [← List.dropLast_append_getLast h.some, ← List.append_assoc,
    List.dropLast_append_getLast, ← h.path] at segs
  exact Path.endsInStep_of_segments segs (h.steps _ (List.getLast_mem h.some)).notIdle

/-- If one of two parts stands at or above the other, then it is a directory above it. -/
def Apart (target : Path) (p q : PlannedEntry) : Prop :=
  ∀ ns more, (p.IsAt target ns → q.IsAt target (ns ++ more) → p.kind = .directory ∧ more ≠ [])
    ∧ (q.IsAt target ns → p.IsAt target (ns ++ more) → q.kind = .directory ∧ more ≠ [])

instance (target : Path) : Std.Symm (Apart target) :=
  ⟨fun _ _ apart ns more => ⟨(apart ns more).2, (apart ns more).1⟩⟩

theorem Apart.path_ne {q : PlannedEntry} (h : Apart target p q) (here : p.IsAt target names) :
    p.path ≠ q.path := by
  intro same
  have there : q.IsAt target (names ++ []) := by
    rw [List.append_nil]
    exact ⟨here.some, here.steps, same ▸ here.path⟩
  exact ((h names []).1 here there).2 rfl

end PlannedEntry

namespace Instantiation

open FileAction FileSystem

variable {fs fs' fs₁ fs₂ : FileSystem} {target : Path} {start dest q : Place} {names : List Text}
  {p : PlannedEntry} {plan done : List PlannedEntry}

/-! ## What is written -/

/-- The target leads to `dest`, and nothing stands below. -/
structure Ready (fs : FileSystem) (target : Path) (dest : Place) : Prop where
  allowed : refusal? target = none
  leads : Leads fs target dest
  empty : ∀ q, Below dest q → fs.get? q = none

/-- How the file system looks when one part has been written below `dest`. -/
structure Written (fs₁ : FileSystem) (dest : Place) (names : List Text) (p : PlannedEntry)
    (fs fs' : FileSystem) : Prop where
  above : ∀ ns more, names = ns ++ more → ns ≠ [] → (more = [] → p.kind = .directory) →
    fs'.get? (placeOf dest ns) = some (.directory (plainMode fs₁ (placeOf dest ns)))
  file : p.kind = .file → fs'.get? (placeOf dest names) = some (.file (.text p.content) p.mode)
  kept : ∀ q x, fs.get? q = some x → fs'.get? q = some x
  other : ∀ q, (∀ ns more, names = ns ++ more → ns ≠ [] → q ≠ placeOf dest ns) →
    fs'.get? q = fs.get? q
  workDir : fs'.workDir = fs.workDir

/-- How the file system looks when some parts have been written below `dest`. -/
structure Built (fs₁ : FileSystem) (target : Path) (dest : Place) (done : List PlannedEntry)
    (fs : FileSystem) : Prop where
  files : ∀ p ∈ done, ∀ ns, p.IsAt target ns → p.kind = .file →
    fs.get? (placeOf dest ns) = some (.file (.text p.content) p.mode)
  directories : ∀ p ∈ done, ∀ ns more, p.IsAt target (ns ++ more) → ns ≠ [] →
    (more = [] → p.kind = .directory) →
    fs.get? (placeOf dest ns) = some (.directory (plainMode fs₁ (placeOf dest ns)))
  only : ∀ q x, Below dest q → fs.get? q = some x →
    ∃ p ∈ done, ∃ ns more, p.IsAt target (ns ++ more) ∧ ns ≠ [] ∧ q = placeOf dest ns
  outside : ∀ q, ¬ Below dest q → fs.get? q = fs₁.get? q
  workDir : fs.workDir = fs₁.workDir

theorem built_nil (empty : ∀ q, Below dest q → fs.get? q = none) : Built fs target dest [] fs := by
  refine ⟨by simp, by simp, fun q x below found => ?_, fun _ _ => rfl, rfl⟩
  simp [empty q below] at found

/-- One more part. -/
theorem Built.concat (h : Built fs₁ target dest done fs) (here : p.IsAt target names)
    (written : Written fs₁ dest names p fs fs') : Built fs₁ target dest (done ++ [p]) fs' := by
  have inside {ns more : List Text} (part : names = ns ++ more) (some : ns ≠ []) :
      Below dest (placeOf dest ns) := below_placeOf dest some
  refine ⟨fun p' mem ns at' kind => ?_, fun p' mem ns more at' some kind => ?_,
    fun q x below found => ?_, fun q outside => ?_, written.workDir.trans h.workDir⟩
  · rcases List.mem_append.1 mem with mem | mem
    · exact written.kept _ _ (h.files p' mem ns at' kind)
    · obtain rfl := List.mem_singleton.1 mem
      exact at'.unique here ▸ written.file kind
  · rcases List.mem_append.1 mem with mem | mem
    · exact written.kept _ _ (h.directories p' mem ns more at' some kind)
    · obtain rfl := List.mem_singleton.1 mem
      exact written.above ns more (here.unique at') some kind
  · by_cases new : ∃ ns more, names = ns ++ more ∧ ns ≠ [] ∧ q = placeOf dest ns
    · obtain ⟨ns, more, rfl, some, eq⟩ := new
      exact ⟨p, by simp, ns, more, here, some, eq⟩
    · rw [written.other q fun ns more part some eq => new ⟨ns, more, part, some, eq⟩] at found
      obtain ⟨p', mem, others⟩ := h.only q x below found
      exact ⟨p', List.mem_append_left _ mem, others⟩
  · rw [written.other q, h.outside q outside]
    rintro ns more part some rfl
    exact outside (inside part some)

theorem not_below_placeOf {front back : List Text} (part : front <+: back) :
    ¬ Below (placeOf start back) (placeOf start front) := by
  rintro ⟨names, some, eq⟩
  obtain ⟨more, rfl⟩ := part
  have length := congrArg List.length eq
  have positive := List.length_pos_iff.2 some
  simp [placeOf] at length
  omega

/-- What stands on the way to a part that is still to be written is a directory. -/
theorem Built.above (h : Built fs₁ target dest done fs) (here : p.IsAt target names)
    (apart : ∀ p' ∈ done, PlannedEntry.Apart target p' p) {ns more : List Text} {x : Node}
    (part : names = ns ++ more) (found : fs.get? (placeOf dest ns) = some x) (nonempty : ns ≠ []) :
    x = .directory (plainMode fs₁ (placeOf dest ns)) ∧ (more = [] → p.kind = .directory) := by
  obtain ⟨p', mem, ns', more', at', _, eq⟩ := h.only _ x (below_placeOf dest nonempty) found
  obtain rfl := placeOf_inj eq
  subst part
  by_cases last : more' = []
  · subst last
    rw [List.append_nil] at at'
    obtain ⟨kind, deeper⟩ := (apart p' mem ns more).1 at' here
    have dir := h.directories p' mem ns [] (by simpa using at') nonempty fun _ => kind
    rw [found] at dir
    exact ⟨Option.some.inj dir, fun none => absurd none deeper⟩
  · have dir := h.directories p' mem ns more' at' nonempty fun none => absurd none last
    rw [found] at dir
    refine ⟨Option.some.inj dir, ?_⟩
    rintro rfl
    rw [List.append_nil] at here
    exact ((apart p' mem ns more').2 here at').1

/-- All directories below the destination have the mode they are made with. -/
theorem Built.plainMode_eq (h : Built fs₁ target dest done fs) (ready : Ready fs₁ target dest)
    (q : Place) : plainMode fs q = plainMode fs₁ q := by
  refine plainMode_congr (fun q mode found => ?_) (fun q mode found => ?_) q
  · rw [h.outside q, found]
    intro below
    simp [ready.empty q below] at found
  · by_cases below : Below dest q
    · obtain ⟨p, mem, ns, more, at', nonempty, rfl⟩ := h.only q _ below found
      right
      by_cases file : more = [] ∧ p.kind = .file
      · obtain ⟨rfl, kind⟩ := file
        rw [List.append_nil] at at'
        rw [h.files p mem ns at' kind] at found
        simp at found
      · have kind : more = [] → p.kind = .directory := by
          intro none
          cases kind : p.kind with
          | directory => rfl
          | file => exact absurd ⟨none, kind⟩ file
        rw [h.directories p mem ns more at' nonempty kind] at found
        exact (Node.directory.inj (Option.some.inj found)).symm
    · exact .inl (h.outside q below ▸ found)

/-! ## Writing one part -/

/-- How the file system looks when the directories along some names below `dest` are made. -/
structure Opened (fs₁ : FileSystem) (dest : Place) (names : List Text) (fs fs' : FileSystem) :
    Prop where
  above : ∀ ns more, names = ns ++ more → ns ≠ [] →
    fs'.get? (placeOf dest ns) = some (.directory (plainMode fs₁ (placeOf dest ns)))
  kept : ∀ q x, fs.get? q = some x → fs'.get? q = some x
  other : ∀ q, (∀ ns more, names = ns ++ more → ns ≠ [] → q ≠ placeOf dest ns) →
    fs'.get? q = fs.get? q
  workDir : fs'.workDir = fs.workDir

/-- Behind the target no file of another part is in the way. -/
theorem Built.clear (h : Built fs₁ target dest done fs) (there : fs.isDirectoryAt dest = true)
    (here : p.IsAt target names) (apart : ∀ p' ∈ done, PlannedEntry.Apart target p' p)
    {front back : List Text} (part : names = front ++ back) : Clear fs dest front := by
  rintro ns ⟨rest, rfl⟩
  by_cases none : ns = []
  · subst none
    exact .inr there
  · cases found : fs.get? (placeOf dest ns) with
    | none => exact .inl rfl
    | some x =>
      rw [List.append_assoc] at part
      obtain ⟨rfl, _⟩ := h.above here apart part found none
      exact .inr (isDirectoryAt_of_get? found)

/-- Before a part is written, its directories can be made. -/
theorem Built.opened (h : Built fs₁ target dest done fs) (ready : Ready fs₁ target dest)
    (leads : Leads fs target dest) (here : p.FitsAt target names)
    (apart : ∀ p' ∈ done, PlannedEntry.Apart target p' p)
    {front back : List Text} (part : names = front ++ back) {path : Path}
    (kind : Path.isAbsolute path = Path.isAbsolute target)
    (along : Path.steps path = Path.steps target ++ front)
    (fit : ∀ a ∈ ancestors path, refusal? a = none ∧ Path.EndsInStep a) :
    ∃ fs', createDirectories path fs = .ok () fs' ∧ Opened fs₁ dest front fs fs'
      ∧ Leads fs' target dest ∧ Paved fs' dest front := by
  have clear := h.clear leads.there here.toIsAt apart part
  have plain : ∀ n ∈ front, IsPlainName n := by
    intro n mem
    exact here.plain n (part ▸ List.mem_append_left _ mem)
  obtain ⟨fs', ok, made⟩ := createDirectories_behind leads kind along fit plain clear
  refine ⟨fs', ok, ⟨fun ns more split nonempty => ?_, fun q x found => ?_, fun q away => ?_,
    made.workDir⟩, leads.preserved (preserved_createDirectories ok), made.paved clear⟩
  · cases found : fs.get? (placeOf dest ns) with
    | none =>
      have new := made.new ns ⟨more, split.symm⟩ found
      rwa [h.plainMode_eq ready] at new
    | some x =>
      rw [split, List.append_assoc] at part
      obtain ⟨rfl, _⟩ := h.above here.toIsAt apart part found nonempty
      rw [made.kept _ fun free => by simp [found] at free, found]
  · rw [made.kept q fun free => by simp [found] at free, found]
  · refine made.kept q fun free ns prefixed eq => ?_
    obtain ⟨rest, split⟩ := prefixed
    refine away ns rest split.symm ?_ eq
    rintro rfl
    have dir := leads.there
    rw [placeOf_nil] at eq
    simp [isDirectoryAt, ← eq, free] at dir

/-- A part leads to its place once the directories in front of it are made. -/
theorem locate_part (leads : Leads fs target dest) (here : p.FitsAt target names)
    (paved : Paved fs dest names.dropLast)
    (notLink : ∀ link, fs.get? (placeOf dest names) ≠ some (.link link)) (goal : Goal) :
    locate fs goal p.path = .ok (placeOf dest names) := by
  obtain ⟨front, segs, filtered, _⟩ := Path.segments_foldl_join here.words here.some target
  have plain := here.plain
  obtain ⟨before, last, rfl⟩ : ∃ before last, names = before ++ [last] :=
    ⟨names.dropLast, names.getLast here.some, (List.dropLast_concat_getLast here.some).symm⟩
  rw [List.dropLast_concat] at paved
  have along : (front ++ before).filter (fun s => !Path.isIdle s) = Path.steps target ++ before := by
    rw [List.filter_append, filtered,
      filter_steps fun n mem => here.steps n (List.mem_append_left _ mem)]
  have arrives := leads.arrives.append paved fun n mem => plain n (List.mem_append_left _ mem)
  rw [placeOf_concat] at notLink ⊢
  simp only [locate, here.allowed]
  rw [startOf, here.isAbsolute_path, ← startOf, here.path, segs, ← List.append_assoc]
  exact arrives.resolve_last along (plain last (by simp)) notLink goal

/-- In the directories that are made for it, a file can be written. -/
private theorem Opened.exists_written {before : List Text} {last : Text}
    (h : Opened fs₁ dest before fs fs₂) (here : p.FitsAt target (before ++ [last]))
    (kind : p.kind = .file) (leads : Leads fs₂ target dest) (paved : Paved fs₂ dest before)
    (free : fs.get? (placeOf dest (before ++ [last])) = none) :
    ∃ fs' place fs₃, writeFile p.path (.text p.content) fs₂ = .ok place fs₃
      ∧ setMode p.path p.mode fs₃ = .ok () fs'
      ∧ Written fs₁ dest (before ++ [last]) p fs fs' := by
  have apart {ns more : List Text} (part : before = ns ++ more) :
      placeOf dest ns ≠ placeOf dest (before ++ [last]) := by
    rw [placeOf_concat]
    exact placeOf_ne_of_isPrefix ⟨more, part.symm⟩
  have free₂ : fs₂.get? (placeOf dest (before ++ [last])) = none := by
    rw [h.other _ fun ns more part _ => (apart part).symm, free]
  have front : Paved fs₂ dest (before ++ [last]).dropLast := by rwa [List.dropLast_concat]
  obtain ⟨fs₃, written, put⟩ := writeFile_of_free (.text p.content)
    (locate_part leads here front (by simp [free₂]) .file) free₂
  have kept := preserved_writeFile written
  have located := locate_part (leads.preserved kept) here (fun ns part => kept.dirs _ (front ns part))
    (by simp [put.self]) .node
  have looked : lookup fs₃ p.path
      = .ok (placeOf dest (before ++ [last]), .file (.text p.content) .newFile) := by
    simp only [lookup, located, put.self]
  obtain ⟨fs', moded, set⟩ := setMode_of_lookup p.mode looked
  have other {q : Place} (away : q ≠ placeOf dest (before ++ [last])) :
      fs'.get? q = fs₂.get? q := by
    rw [set.other away, put.other away]
  refine ⟨fs', _, fs₃, written, moded, fun ns more part some isDir => ?_, fun _ => set.self,
    fun q x found => ?_, fun q away => ?_, ?_⟩
  · rcases List.eq_nil_or_concat' more with rfl | ⟨more, n, rfl⟩
    · simp [kind] at isDir
    · rw [← List.append_assoc] at part
      have part := (List.append_inj' part rfl).1
      rw [other (apart part)]
      exact h.above ns more part some
  · have away : q ≠ placeOf dest (before ++ [last]) := by
      rintro rfl
      simp [free] at found
    rw [other away]
    exact h.kept q x found
  · rw [other (away (before ++ [last]) [] (by simp) (by simp))]
    refine h.other q fun ns more part => away ns (more ++ [last]) ?_
    rw [part, List.append_assoc]
  · rw [set.workDir, put.workDir, h.workDir]

/-- A part can be written if it stands apart from those that are written already. -/
theorem Built.exists_written (h : Built fs₁ target dest done fs) (ready : Ready fs₁ target dest)
    (leads : Leads fs target dest) (here : p.FitsAt target names)
    (apart : ∀ p' ∈ done, PlannedEntry.Apart target p' p) :
    ∃ fs', writeEntry p fs = .ok () fs' ∧ Written fs₁ dest names p fs fs' := by
  cases kind : p.kind with
  | directory =>
    obtain ⟨fs', ok, opened, _⟩ := h.opened ready leads here apart (List.append_nil names).symm
      here.isAbsolute_path here.steps_path fun a mem =>
        ⟨refusal?_of_sublist here.allowed (Path.segments_sublist_of_mem_ancestors mem)
          (Path.ne_nil_of_mem_ancestors mem), here.endsInStep.of_mem_ancestors mem⟩
    refine ⟨fs', by simpa only [writeEntry, kind] using ok, ?_⟩
    exact ⟨fun ns more part some _ => opened.above ns more part some, by simp [kind], opened.kept,
      opened.other, opened.workDir⟩
  | file =>
    obtain ⟨before, last, q, rfl, parent, absolute, along, ends, thinner⟩ :=
      exists_parent_names target here.steps here.some
    rw [← here.path] at parent thinner
    obtain ⟨fs₂, made, opened, leads₂, paved⟩ := h.opened ready leads here apart rfl absolute along
      fun a mem => ⟨refusal?_of_sublist here.allowed (thinner a mem)
        (Path.ne_nil_of_mem_ancestors mem), ends.of_mem_ancestors mem⟩
    have free : fs.get? (placeOf dest (before ++ [last])) = none := by
      cases found : fs.get? (placeOf dest (before ++ [last])) with
      | none => rfl
      | some x =>
        have dir := (h.above here.toIsAt apart (List.append_nil _).symm found here.some).2 rfl
        simp [kind] at dir
    obtain ⟨fs', _, fs₃, written, moded, done⟩ := opened.exists_written here kind leads₂ paved free
    refine ⟨fs', ?_, done⟩
    simp only [writeEntry, kind, parent, Option.getD_some]
    exact bind_ok_iff.2 ⟨(), fs₂, made, bind_ok_iff.2 ⟨_, fs₃, written, moded⟩⟩

/-- A whole plan can be written if its parts stand apart, in whatever order they come. -/
theorem exists_writeEntries (ready : Ready fs₁ target dest) {done : List PlannedEntry}
    (h : Built fs₁ target dest done fs) (leads : Leads fs target dest)
    (parts : ∀ p ∈ plan, ∃ names, p.FitsAt target names)
    (apart : (done ++ plan).Pairwise (PlannedEntry.Apart target)) :
    ∃ fs', writeEntries plan fs = .ok () fs' ∧ Built fs₁ target dest (done ++ plan) fs'
      ∧ Leads fs' target dest := by
  induction plan generalizing done fs with
  | nil => exact ⟨fs, rfl, by rwa [List.append_nil], leads⟩
  | cons p more ih =>
    obtain ⟨names, here⟩ := parts p List.mem_cons_self
    have before : ∀ p' ∈ done, PlannedEntry.Apart target p' p :=
      fun p' mem => (List.pairwise_append.1 apart).2.2 p' mem p List.mem_cons_self
    obtain ⟨fs₂, first, written⟩ := h.exists_written ready leads here before
    have split : done ++ p :: more = (done ++ [p]) ++ more := by simp
    rw [split] at apart ⊢
    obtain ⟨fs', others, built, leads'⟩ := ih (h.concat here.toIsAt written)
      (leads.preserved (preserved_writeEntry first))
      (fun q mem => parts q (List.mem_cons_of_mem _ mem)) apart
    exact ⟨fs', bind_ok_iff.2 ⟨(), fs₂, first, others⟩, built, leads'⟩

end Instantiation

end Scaffold
