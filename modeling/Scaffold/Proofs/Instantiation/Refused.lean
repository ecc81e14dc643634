import Scaffold.Command.Basic
import Scaffold.Proofs.Instantiation.Consults
import Scaffold.Proofs.Instantiation.Harmless
import Scaffold.Proofs.Job
import Scaffold.Proofs.Registry.Changes
import Scaffold.Registry.Memory

/-!
# Refusals before the first write

A missing value, a rendered name that is no component and a target that is taken are all
found before anything is written: the target is checked and the whole plan is made first.
What is left then are writes, and they can only fail because the file system refuses one
of them. The same holds of the command, which looks up a template, reads assignments and
takes turns with a user in front of the instantiation, none of which touches a file.
-/

namespace Scaffold

open FileSystem FileAction Instantiation

variable {t : Template} {target : Path} {values resolved : Values} {fs fs' : FileSystem}
  {e : Error} {plan : List PlannedEntry}

/-! ## Faults -/

namespace Instantiation

/-- An error that is about a value, a name or the target. -/
inductive IsFault : Error → Prop
  | value (name : Text) : IsFault (.missingArgument name)
  | name (rendered template : Text) : IsFault (.invalidEntryName rendered template)
  | target (path : Path) : IsFault (.targetTaken path)

theorem IsFault.of_render {text : Text} (h : Placeholder.render values text = .error e) :
    IsFault e := by
  obtain ⟨a, _, _, rfl⟩ := Placeholder.renderPieces_error h
  exact .value a.name

/-- No values or names can make the plan fail in any other way. -/
theorem prepare_error (h : prepare t target values = .error e) : IsFault e := by
  unfold prepare at h
  split at h
  · rename_i missing
    obtain rfl := Except.error.inj h
    obtain ⟨a, _, rfl⟩ := Contract.resolve_error_iff.1 missing
    exact .value a.name
  · split at h
    · rename_i refused
      obtain rfl := Except.error.inj h
      rcases Plan.ofEntries_error refused with ⟨_, _, _, _, unrendered⟩ | ⟨_, _, rfl⟩
      · exact .of_render unrendered
      · exact .name _ _
    · simp at h

/-- A refused target leaves the files alone. -/
theorem checkTarget_error (h : checkTarget target fs = .error e fs') :
    fs' = fs ∧ (IsFault e ∨ ∃ why, e = .io why) := by
  unfold checkTarget at h
  split at h
  · simp at h
  · rename_i why _ _
    simp only [EStateM.Result.error.injEq] at h
    exact ⟨h.2.symm, .inr ⟨why, h.1.symm⟩⟩
  · split at h
    · simp at h
    · simp only [EStateM.Result.error.injEq] at h
      exact ⟨h.2.symm, .inl (h.1 ▸ .target target)⟩
  · simp only [EStateM.Result.error.injEq] at h
    exact ⟨h.2.symm, .inl (h.1 ▸ .target target)⟩

theorem asks_checkTarget (target : Path) : Action.Asks (checkTarget target) := by
  intro fs
  cases run : checkTarget target fs with
  | ok _ fs' =>
    rw [Action.after_of_ok run]
    exact (checkTarget_ok run).1
  | error e fs' =>
    rw [Action.after_of_error run]
    exact (checkTarget_error run).1

end Instantiation

/-- An instantiation fails without having changed anything, or it fails at a write once the
target and the plan are in order. -/
theorem instantiate_error (h : instantiate t target values fs = .error e fs') :
    fs' = fs ∧ (checkTarget target fs = .error e fs
        ∨ checkTarget target fs = .ok () fs ∧ prepare t target values = .error e)
      ∨ ∃ resolved plan why, checkTarget target fs = .ok () fs
        ∧ prepare t target values = .ok (resolved, plan)
        ∧ writePlan target plan fs = .error why fs' ∧ e = .io why := by
  unfold instantiate at h
  rcases bind_error_iff.1 h with refused | ⟨_, fs₁, checked, rest⟩
  · obtain ⟨rfl, _⟩ := checkTarget_error refused
    exact .inl ⟨rfl, .inl refused⟩
  obtain ⟨rfl, _⟩ := checkTarget_ok checked
  rcases bind_error_iff.1 rest with refused | ⟨⟨resolved, plan⟩, fs₂, planned, rest⟩
  · obtain ⟨unplanned, rfl⟩ := Action.ofExcept_error_iff.1 refused
    exact .inl ⟨rfl, .inr ⟨checked, unplanned⟩⟩
  obtain ⟨prepared, rfl⟩ := Action.ofExcept_ok_iff.1 planned
  rcases bind_error_iff.1 rest with refused | ⟨_, fs₃, _, done⟩
  · obtain ⟨why, rfl, unwritten⟩ := run_error refused
    exact .inr ⟨resolved, plan, why, checked, prepared, unwritten, rfl⟩
  · simp [pure, EStateM.pure] at done

namespace Command

open Job Registry

variable {ρ : Type} [Registry ρ]

/-- Whatever an instantiation by name does in front of the engine only looks at files. -/
theorem failsClean_instantiate
    (reads : ∀ name, Reads (Registry.get name : Job ρ StoredTemplate))
    (prompt : FileSystem → Prompt) (o : InstantiateOptions) :
    FailsClean (Command.instantiate prompt o : Job ρ Report) := by
  refine .bind (reads_check _) fun name => .bind (reads name) fun stored => ?_
  refine .bind (reads_onFiles (asks_checkTarget o.target)) fun _ => ?_
  refine .bind (reads_check _) fun assigned => .bind reads_get fun w => ?_
  have engine (values : Values) :
      FailsClean (onFiles (Scaffold.instantiate stored.template o.target values) : Job ρ Report) := by
    refine failsClean_onFiles fun fs e fs' h => ?_
    rcases instantiate_error h with ⟨same, _⟩ | ⟨_, _, why, _, _, _, rfl⟩
    · exact .inr same
    · exact .inl ⟨why, rfl⟩
  dsimp only
  split
  · exact .bind (reads_ask _ _ _) engine
  · exact .bind (reads_pure _) engine

end Command

theorem FiledRegistry.reads_get (name : TemplateName) :
    Job.Reads (Registry.get name : Job FiledRegistry StoredTemplate) := by
  have reads (r : FiledRegistry) := Job.reads_onFiles (ρ := FiledRegistry) (r.asks_get name)
  exact ⟨fun w => (reads w.registry).ok w, fun w => (reads w.registry).error w⟩

/-- The registry in memory has no files. -/
theorem MemoryRegistry.reads_step {α : Type}
    (f : MemoryRegistry → Except Error (α × MemoryRegistry)) : Job.Reads (MemoryRegistry.step f) := by
  constructor
  · intro w a w' h
    unfold MemoryRegistry.step at h
    split at h
    · simp only [EStateM.Result.ok.injEq] at h
      rw [← h.2]
    · simp at h
  · intro w e w' h
    unfold MemoryRegistry.step at h
    split at h
    · simp at h
    · simp only [EStateM.Result.error.injEq] at h
      rw [h.2]

theorem MemoryRegistry.reads_get (name : TemplateName) :
    Job.Reads (Registry.get name : Job MemoryRegistry StoredTemplate) :=
  MemoryRegistry.reads_step _

/-- An error about a value, a name or the target leaves every file as it was, and once the
target and the plan are in order only the file system can refuse. An instantiation by name
fails without a refusal of the file system only if it has not changed any file, whatever
the template, the assignments and the turns of the user are, be the registry in files or
in memory. -/
theorem fault_before_write :
    (∀ t target values fs e fs', instantiate t target values fs = .error e fs' →
      IsFault e ∧ fs' = fs ∨ ∃ why, e = .io why)
    ∧ (∀ t target values resolved plan fs e fs', checkTarget target fs = .ok () fs →
      prepare t target values = .ok (resolved, plan) →
      instantiate t target values fs = .error e fs' →
      ∃ why, e = .io why ∧ writePlan target plan fs = .error why fs')
    ∧ (∀ prompt o, Job.FailsClean (Command.instantiate prompt o : Job FiledRegistry Report))
    ∧ ∀ prompt o, Job.FailsClean (Command.instantiate prompt o : Job MemoryRegistry Report) := by
  refine ⟨fun t target values fs e fs' h => ?_,
    fun t target values resolved plan fs e fs' checked prepared h => ?_,
    Command.failsClean_instantiate FiledRegistry.reads_get,
    Command.failsClean_instantiate MemoryRegistry.reads_get⟩
  · rcases instantiate_error h with ⟨rfl, refused | ⟨_, refused⟩⟩ | ⟨_, _, why, _, _, _, rfl⟩
    · exact (checkTarget_error refused).2.imp_left fun fault => ⟨fault, rfl⟩
    · exact .inl ⟨prepare_error refused, rfl⟩
    · exact .inr ⟨why, rfl⟩
  · rcases instantiate_error h with ⟨_, refused | ⟨_, refused⟩⟩ | ⟨_, _, why, _, made, written, rfl⟩
    · simp [checked] at refused
    · simp [prepared] at refused
    · rw [prepared, Except.ok.injEq, Prod.mk.injEq] at made
      obtain ⟨rfl, rfl⟩ := made
      exact ⟨why, rfl, written⟩

/-- A template with one file of this name. -/
def oneFile (name : Text) : Template :=
  ⟨[⟨name, .file, ".".toList, 0o644, some [], []⟩], []⟩

/-- A file whose name needs a value is not planned; one whose name is too long is, and it
fails after the target has been made. -/
theorem fault_before_write_oneFile :
    (∃ e fs', instantiate (oneFile "#{name}".toList) "new".toList .empty keptFile = .error e fs'
      ∧ (IsFault e ∧ fs' = keptFile ∨ ∃ why, e = .io why))
    ∧ ∃ plan e fs', instantiate (oneFile (.replicate 256 'a')) "new".toList .empty keptFile
        = .error e fs'
      ∧ fs' ≠ keptFile ∧ ∃ why, e = .io why ∧ writePlan "new".toList plan keptFile = .error why fs' := by
  constructor
  · obtain ⟨e, fs', failed⟩ : ∃ e fs', instantiate (oneFile "#{name}".toList) "new".toList .empty
        keptFile = .error e fs' := by
      decide +kernel
    exact ⟨e, fs', failed, fault_before_write.1 _ _ _ _ _ _ failed⟩
  · obtain ⟨_, fs, checked⟩ : ∃ a fs, checkTarget "new".toList keptFile = .ok a fs := by
      decide +kernel
    obtain ⟨rfl, _⟩ := checkTarget_ok checked
    obtain ⟨⟨resolved, plan⟩, prepared⟩ : ∃ prepared,
        prepare (oneFile (.replicate 256 'a')) "new".toList .empty = .ok prepared := by
      decide +kernel
    obtain ⟨e, fs', failed, made⟩ : ∃ e fs', instantiate (oneFile (.replicate 256 'a')) "new".toList
        .empty keptFile = .error e fs' ∧ fs'.isDirectory "new".toList = true := by
      decide +kernel
    refine ⟨plan, e, fs', failed, ?_,
      fault_before_write.2.1 _ _ _ _ _ _ _ _ checked prepared failed⟩
    rintro rfl
    exact absurd made (by decide +kernel)

end Scaffold
