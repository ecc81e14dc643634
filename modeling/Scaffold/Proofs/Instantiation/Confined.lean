import Scaffold.Proofs.Instantiation.Refused

/-!
# Nothing is written elsewhere

The names and parent paths of a template come from a file that anybody may have written,
and they are rendered with values that anybody may have given. Each rendered component is
checked on its own, so the path of every part of a plan is the target with plain names
behind it. Writing along plain names does not leave an empty directory, so an instantiation
changes nothing but what stands below its target, and the directories that it makes on the
way there. This holds whether it succeeds or is refused halfway.
-/

namespace Scaffold

open FileSystem FileAction Instantiation Plan

variable {t : Template} {target : Path} {values resolved : Values} {fs fs₁ fs' : FileSystem}
  {e : Entry} {p : PlannedEntry} {plan : List PlannedEntry} {n : Text} {names : List Text}
  {dir : Place}

/-! ## The paths of a plan -/

/-- A text that can only be the name of a node. -/
structure IsPlainComponent (n : Text) : Prop where
  nonempty : n ≠ []
  notHere : n ≠ ['.']
  notUp : n ≠ ['.', '.']
  noSlash : '/' ∉ n
  noBackslash : '\\' ∉ n
  noNul : '\x00' ∉ n

theorem isPathComponent_iff : isPathComponent n = true ↔ IsPlainComponent n := by
  simp only [isPathComponent, Bool.and_eq_true, decide_eq_true_eq, List.all_eq_true]
  constructor
  · rintro ⟨⟨⟨nonempty, notHere⟩, notUp⟩, chars⟩
    have other {c : Char} (mem : c ∈ n) := chars c mem
    exact ⟨nonempty, notHere, notUp, fun mem => by simpa using other mem,
      fun mem => by simpa using other mem, fun mem => by simpa using other mem⟩
  · intro h
    refine ⟨⟨⟨h.nonempty, h.notHere⟩, h.notUp⟩, fun c mem => ⟨⟨?_, ?_⟩, ?_⟩⟩
    · rintro rfl
      exact h.noSlash mem
    · rintro rfl
      exact h.noBackslash mem
    · rintro rfl
      exact h.noNul mem

/-- The path of a part is the target with plain names behind it. -/
theorem Plan.ofEntry_plain (h : ofEntry values target e = .ok p) :
    ∃ names, names ≠ [] ∧ (∀ n ∈ names, IsPlainComponent n)
      ∧ p.path = names.foldl Path.join target
      ∧ Path.components p.path = Path.components target ++ names.map .name := by
  obtain ⟨names, rendered, _, path, _⟩ := ofEntry_ok h
  obtain ⟨some, components⟩ := isPathComponent_of_renderNames rendered
  refine ⟨names, some, fun n mem => isPathComponent_iff.1 (components n mem), path, ?_⟩
  rw [path, components_foldl_join (isStep_of_renderNames rendered).2]

/-! ## What a run changes -/

/-- Everything from before is as it was, and what is new stands below the directory of the
target or is a directory on the way to it. -/
structure StaysAt (target : Path) (fs fs' : FileSystem) : Prop where
  kept : ∀ q x, fs.get? q = some x → fs'.get? q = some x
  new : ∀ q x, fs.get? q = none → fs'.get? q = some x →
    (x.isDirectory = true ∧ ∃ a ∈ ancestors target, locate fs' .node a = .ok q)
      ∨ ∃ dir, locate fs' .node target = .ok dir ∧ Below dir q
  /-- What the target led to before, it still leads to. -/
  same : ∀ place x, lookup fs target = .ok (place, x) → locate fs' .node target = .ok place

theorem StaysAt.refl (target : Path) (fs : FileSystem) : StaysAt target fs fs where
  kept _ _ found := found
  new _ _ none found := by simp [none] at found
  same _ _ looked := locate_of_lookup looked

/-- Only the writes can change anything. -/
theorem after_instantiate (t : Template) (target : Path) (values : Values) (fs : FileSystem) :
    (instantiate t target values).after fs = fs
      ∨ ∃ resolved plan, checkTarget target fs = .ok () fs
        ∧ prepare t target values = .ok (resolved, plan)
        ∧ (instantiate t target values).after fs = FileAction.after (writePlan target plan) fs := by
  cases run : instantiate t target values fs with
  | ok report fs' =>
    obtain ⟨resolved, plan, fs₁, fs₂, checked, prepared, made, written, moded, _⟩ :=
      instantiate_ok run
    have whole : writePlan target plan fs = .ok () fs' :=
      bind_ok_iff.2 ⟨_, fs₁, made, bind_ok_iff.2 ⟨_, fs₂, written, moded⟩⟩
    rw [Action.after_of_ok run]
    exact .inr ⟨resolved, plan, checked, prepared, (after_ok whole).symm⟩
  | error e fs' =>
    rw [Action.after_of_error run]
    rcases instantiate_error run with ⟨rfl, _⟩ | ⟨resolved, plan, why, checked, prepared, refused, _⟩
    · exact .inl rfl
    · exact .inr ⟨resolved, plan, checked, prepared, (after_error refused).symm⟩

/-- What the target led to before, it still leads to while directories are kept. -/
private theorem locate_target (checked : checkTarget target fs = .ok () fs)
    (preserved : Preserved fs fs') {place : Place} {x : Node}
    (looked : lookup fs target = .ok (place, x)) : locate fs' .node target = .ok place := by
  have isDir : x.isDirectory = true := by
    rcases (checkTarget_ok checked).2 with missing | ⟨_, mode, found, _⟩
    · simp [looked] at missing
    · rw [looked, Except.ok.injEq, Prod.mk.injEq] at found
      rw [found.2]
      rfl
  have leads := (leads_of_lookup looked isDir).preserved preserved
  exact leads.locate_eq (refusal?_of_locate (locate_of_lookup looked))

/-- Making the target changes nothing but directories on the way to it. -/
private theorem staysAt_of_made (checked : checkTarget target fs = .ok () fs)
    (after : FileAction.after (createDirectories target) fs = fs') : StaysAt target fs fs' := by
  obtain ⟨grown, new⟩ := after ▸ grown_target target fs
  refine ⟨grown.kept, fun q x none found => .inl ?_, fun place x => locate_target checked
    grown.preserved⟩
  obtain ⟨a, mem, allowed, leads⟩ := new q x none found
  exact ⟨grown.added q x none found, a, mem, leads.locate_eq allowed⟩

/-- Writing below an empty directory changes nothing that was there before. -/
private theorem staysAt_of_confined (checked : checkTarget target fs = .ok () fs)
    (some : target ≠ []) (made : createDirectories target fs = .ok () fs₁)
    (leads : Leads fs₁ target dir) (empty : fs.childNames dir = [])
    (confined : Confined fs₁ fs' dir) : StaysAt target fs fs' := by
  obtain ⟨grown, new⟩ := after_ok made ▸ grown_target target fs
  have here : locate fs' .node target = .ok dir :=
    (leads.preserved confined.preserved).locate_eq (refusal?_of_checkTarget checked some)
  constructor
  · intro q x found
    have outside : ¬ Below dir q := fun below => by
      simp [get?_below_of_childNames empty below] at found
    rw [confined.outside q outside, grown.kept q x found]
  · intro q x none found
    by_cases inside : Below dir q
    · exact .inr ⟨dir, here, inside⟩
    · rw [confined.outside q inside] at found
      obtain ⟨a, mem, allowed, made⟩ := new q x none found
      exact .inl ⟨grown.added q x none found, a, mem,
        (made.preserved confined.preserved).locate_eq allowed⟩
  · exact fun place x => locate_target checked (grown.preserved.trans confined.preserved)

/-- Whatever becomes of it, an instantiation below a target without `..` that is not empty
stays at the target. -/
theorem staysAt_instantiate (some : target ≠ []) (noUp : ['.', '.'] ∉ Path.segments target)
    (t : Template) (values : Values) (fs : FileSystem) :
    StaysAt target fs ((instantiate t target values).after fs) := by
  rcases after_instantiate t target values fs with same | ⟨resolved, plan, checked, prepared, same⟩
  · rw [same]
    exact .refl target fs
  rw [same]
  cases made : createDirectories target fs with
  | error why fs₁ =>
    rw [writePlan, after_bind_of_error made]
    exact staysAt_of_made checked (after_error made)
  | ok _ fs₁ =>
    rw [writePlan, after_bind_of_ok made]
    obtain ⟨dir, leads⟩ := leads_target made some
    have empty : fs.childNames dir = [] := childNames_of_plain checked made leads some noUp
    have grown : Grown fs fs₁ := after_ok made ▸ grown_createDirectories target fs
    have free : NoLinkBelow fs₁ dir := (noLinkBelow_of_childNames empty).grown grown
    have below := isBelow_of_prepare prepared
    have back : ∀ p ∈ directoriesBackwards plan, p.IsBelow target := fun p mem =>
      below p (List.mem_filter.1 (List.mem_reverse.1 mem)).1
    have keeps : Keeps (fun fs => Confined fs₁ fs dir)
        (writeEntries plan >>= fun _ => setModes (directoriesBackwards plan)) :=
      (confined_writeEntries leads below).bind fun _ => confined_setModes leads back
    exact staysAt_of_confined checked some made leads empty (keeps fs₁ (.refl free))

/-- No template, be it read from a text that was written to do harm, gets out of its target:
the path of each part is the target with plain names behind it, whatever the values are; and
whatever an instantiation answers, what is not below the directory of its target, nor a new
directory on the way there, is as it was. -/
theorem no_escape :
    (∀ text t values target e p, Template.parse text = .ok t → e ∈ t.entries →
      Plan.ofEntry values target e = .ok p →
      ∃ names, names ≠ [] ∧ (∀ n ∈ names, IsPlainComponent n)
        ∧ p.path = names.foldl Path.join target
        ∧ Path.components p.path = Path.components target ++ names.map .name)
    ∧ ∀ t target values fs, target ≠ [] → ['.', '.'] ∉ Path.segments target →
      StaysAt target fs ((instantiate t target values).after fs) :=
  ⟨fun _ _ _ _ _ _ _ _ planned => Plan.ofEntry_plain planned,
    fun t _ values fs some noUp => staysAt_instantiate some noUp t values fs⟩

/-- A file whose own name and whose directory are both given by one value. -/
def namedTwice : Template :=
  ⟨[⟨"#{name}".toList, .file, "a/.//#{name}".toList, 0o644, some "text".toList, []⟩], []⟩

theorem no_escape_namedTwice :
    (∃ e ∈ namedTwice.entries, ∃ p,
      Plan.ofEntry (.insert .empty "name".toList "..b".toList) "new".toList e = .ok p
      ∧ ∃ names, names ≠ [] ∧ (∀ n ∈ names, IsPlainComponent n)
        ∧ p.path = names.foldl Path.join "new".toList
        ∧ Path.components p.path = Path.components "new".toList ++ names.map .name)
    ∧ StaysAt "new".toList keptFile
      ((instantiate namedTwice "new".toList (.insert .empty "name".toList "..b".toList)).after
        keptFile) := by
  refine ⟨⟨_, List.mem_cons_self, ?_⟩, no_escape.2 _ _ _ _ (by decide) (by decide)⟩
  obtain ⟨p, planned⟩ : ∃ p, Plan.ofEntry (.insert .empty "name".toList "..b".toList) "new".toList
      ⟨"#{name}".toList, .file, "a/.//#{name}".toList, 0o644, some "text".toList, []⟩ = .ok p := by
    decide +kernel
  have parsed := Template.parse_render (t := namedTwice) (by decide)
  exact ⟨p, planned, no_escape.1 _ _ _ _ _ _ parsed List.mem_cons_self planned⟩

end Scaffold
