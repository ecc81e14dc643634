import Scaffold.Proofs.Registry.Reached

/-!
# Registries without links

No operation of a registry makes a link. Where there are none at first, no config file ever
takes the place of one, and so whatever is done with a registry, a store does what it should
exactly if its config file meets nothing.
-/

namespace Scaffold

open FileSystem FileAction

namespace FileSystem

variable {fs fs' : FileSystem} {place : Place} {path : Path} {y : Node}

/-- Every link of `fs'` was there in `fs`. -/
def MakesNoLink (fs fs' : FileSystem) : Prop :=
  ∀ q target, fs'.get? q = some (.link target) → fs.get? q = some (.link target)

theorem MakesNoLink.trans {fs'' : FileSystem} (h : MakesNoLink fs fs')
    (h' : MakesNoLink fs' fs'') : MakesNoLink fs fs'' :=
  fun q target found => h q target (h' q target found)

theorem Grown.makesNoLink (h : Grown fs fs') : MakesNoLink fs fs' := by
  intro q target found
  cases before : fs.get? q with
  | none => simpa [Node.isDirectory] using h.added q _ before found
  | some x => exact (h.kept q x before).symm.trans found

theorem IsPut.makesNoLink (h : IsPut fs place y fs') (other : ∀ target, y ≠ .link target) :
    MakesNoLink fs fs' := by
  intro q target found
  by_cases here : q = place
  · subst here
    exact absurd (Option.some.inj (h.self.symm.trans found)) (other target)
  · rwa [h.other here] at found

theorem Removed.makesNoLink {gone : List Place} (h : Removed gone fs fs') : MakesNoLink fs fs' := by
  intro q target found
  by_cases mem : q ∈ gone
  · simp [h.free q mem] at found
  · rwa [h.frame q mem] at found

/-- A file system without links. -/
def NoLinks (fs : FileSystem) : Prop := ∀ q target, fs.get? q ≠ some (.link target)

theorem NoLinks.after (h : NoLinks fs) (more : MakesNoLink fs fs') : NoLinks fs' :=
  fun q target found => h q target (more q target found)

theorem NoLinks.linksOn_eq (h : NoLinks fs) (goal : Goal) (path : Path) :
    linksOn fs goal path = [] := by
  unfold linksOn
  cases maxLinks with
  | zero => rfl
  | succ links =>
    unfold linksFrom
    split
    · rename_i walked
      exact absurd ((walks_of_walk walked (by simp)).isLink rfl) (h _ _)
    · rfl

end FileSystem

namespace FiledRegistry

variable {r : FiledRegistry} {fs fs' : FileSystem} {name : TemplateName} {origin : Origin}

/-! ## Operations -/

private abbrev Unlinking {α : Type} (x : Action α) : Prop := Action.Respects MakesNoLink x

private theorem Unlinking.of_asks {α : Type} {x : Action α} (h : Action.Asks x) : Unlinking x := by
  intro fs q target found
  rwa [h fs] at found

private theorem Unlinking.seq {α β : Type} {x : Action α} {f : α → Action β} (h : Unlinking x)
    (more : ∀ a, Unlinking (f a)) : Unlinking (x >>= f) :=
  Action.Respects.bind h more fun _ _ _ => MakesNoLink.trans

private theorem unlinking_run {α : Type} {x : FileAction α}
    (ok : ∀ fs a fs', x fs = .ok a fs' → MakesNoLink fs fs')
    (error : ∀ fs why fs', x fs = .error why fs' → MakesNoLink fs fs') : Unlinking x.run := by
  intro fs
  cases done : x fs with
  | ok a fs' =>
    rw [Action.after_of_ok (run_ok_iff.2 done)]
    exact ok fs a fs' done
  | error why fs' =>
    have refused : x.run fs = .error (.io why) fs' := by simp only [run, done]
    rw [Action.after_of_error refused]
    exact error fs why fs' done

private theorem makesNoLink_createDirectories (path : Path) {fs fs' : FileSystem} :
    (∀ a, createDirectories path fs = .ok a fs' → MakesNoLink fs fs')
      ∧ ∀ why, createDirectories path fs = .error why fs' → MakesNoLink fs fs' :=
  ⟨fun _ made => (after_ok made ▸ grown_createDirectories path fs).makesNoLink,
    fun _ refused => (after_error refused ▸ grown_createDirectories path fs).makesNoLink⟩

private theorem makesNoLink_refl (fs : FileSystem) : MakesNoLink fs fs := fun _ _ found => found

private theorem makesNoLink_openFile {path : Path} {place : Place} {fs fs' : FileSystem}
    (h : openFile path fs = .ok place fs') : MakesNoLink fs fs' := by
  obtain ⟨_, ⟨_, _, put⟩ | ⟨rfl, _⟩⟩ := openFile_ok h
  · exact put.makesNoLink (by simp)
  · exact makesNoLink_refl _

private theorem unlinking_createDirectories (path : Path) :
    Unlinking (createDirectories path).run :=
  unlinking_run (fun _ _ _ => (makesNoLink_createDirectories path).1 _)
    fun _ _ _ => (makesNoLink_createDirectories path).2 _

private theorem unlinking_query {α : Type} (ask : FileSystem → Except IoError α) :
    Unlinking (query ask).run :=
  unlinking_run (fun _ a _ done => query_state.1 a done ▸ makesNoLink_refl _)
    fun _ why _ refused => query_state.2 why refused ▸ makesNoLink_refl _

private theorem unlinking_writeConfig (record : Record) (t : Template) :
    Unlinking (writeConfig record t) := by
  refine .seq (unlinking_createDirectories _) fun _ => .seq (.of_asks fun _ => rfl) fun fs => ?_
  split
  · refine .seq (unlinking_query _) fun _ => unlinking_run ?_ ?_
    · intro fs place fs' moved
      exact (replaceFile_ok moved).2.2.makesNoLink (by simp)
    · intro fs why fs' refused
      exact replaceFile_error refused ▸ makesNoLink_refl _
  · exact .of_asks (Action.asks_throw _)

private theorem makesNoLink_removeFile {path : Path} {place : Place} {fs fs' : FileSystem}
    (h : removeFile path fs = .ok place fs') : MakesNoLink fs fs' := by
  obtain ⟨_, noDir, rfl⟩ := removeFile_ok h
  exact (removed_remove noDir).makesNoLink

private theorem unlinking_removeStale (path : Path) : Unlinking (removeStale path) := by
  intro fs
  cases run : removeStale path fs with
  | ok stale fs' =>
    rw [Action.after_of_ok run]
    rcases removeStale_ok run with ⟨_, removed, _⟩ | ⟨_, _, rfl⟩
    · exact makesNoLink_removeFile removed
    · exact makesNoLink_refl _
  | error e fs' => exact absurd run removeStale_ne_error

private theorem unlinking_updateIndex {α : Type}
    {change : Index → Action (α × Index × List Place)} (h : ∀ index, Unlinking (change index)) :
    Unlinking (r.updateIndex change) := by
  refine .seq (unlinking_createDirectories _) fun _ => .seq (unlinking_run ?_ ?_) fun place =>
    .seq (unlinking_query _) fun t => .seq (.of_asks (Action.asks_ofExcept _)) fun index =>
    .seq (h index) fun result => ?_
  · exact fun _ _ _ => makesNoLink_openFile
  · exact fun _ _ _ refused => openFile_error refused ▸ makesNoLink_refl _
  obtain ⟨a, index', detached⟩ := result
  dsimp only
  split
  · exact .of_asks (Action.asks_pure _)
  · refine .seq (unlinking_run ?_ ?_) fun _ => .of_asks (Action.asks_pure _)
    · intro fs _ fs' written
      obtain ⟨fs'', written', which⟩ := writePlace_cases place (.text (Index.render index')) fs
      obtain ⟨_, rfl⟩ := EStateM.Result.ok.inj (written.symm.trans written')
      rcases which with ⟨_, _, _, put⟩ | rfl
      · exact put.makesNoLink (by simp)
      · exact makesNoLink_refl _
    · exact fun _ _ _ refused => absurd refused writePlace_ne_error

private theorem unlinking_takeConfig (record : Record) : Unlinking (takeConfig record) := by
  intro fs
  rcases takeConfig_cases record fs with ⟨e, refused⟩ | ⟨t, gone, fs', taken, which⟩
  · rw [Action.after_of_error refused]
    exact makesNoLink_refl _
  · rw [Action.after_of_ok taken]
    rcases which with ⟨_, rfl⟩ | ⟨q, _, removed⟩
    · exact makesNoLink_refl _
    · exact makesNoLink_removeFile removed

theorem Call.makesNoLink (c : Call) (fs : FileSystem) : MakesNoLink fs (c.after r fs) := by
  cases c with
  | contains name => exact Unlinking.of_asks (r.asks_contains name) fs
  | get name => exact Unlinking.of_asks (r.asks_get name) fs
  | list => exact Unlinking.of_asks r.asks_list fs
  | put now name origin t =>
    refine unlinking_updateIndex (fun index => ?_) fs
    split
    · exact .of_asks (Action.asks_throw _)
    · exact .seq (unlinking_writeConfig _ t) fun _ => .of_asks (Action.asks_pure _)
  | replace now name origin t =>
    refine unlinking_updateIndex (fun index => ?_) fs
    split
    · exact .of_asks (Action.asks_throw _)
    · refine .seq (unlinking_writeConfig _ t) fun _ => ?_
      split
      · exact .seq (.of_asks (Action.asks_pure _)) fun _ => .of_asks (Action.asks_pure _)
      · exact .seq (unlinking_removeStale _) fun _ => .of_asks (Action.asks_pure _)
  | delete name =>
    refine unlinking_updateIndex (fun index => ?_) fs
    split
    · exact .of_asks (Action.asks_throw _)
    · exact .seq (unlinking_takeConfig _) fun _ => .of_asks (Action.asks_pure _)

/-! ## Runs -/

/-- Without links, no call replaces one. -/
theorem Call.keepsWays_of_noLinks (c : Call) (h : NoLinks fs) : c.KeepsWays r fs := by
  have keeps (name : TemplateName) (origin : Origin) : r.StoreKeepsWays name origin fs := by
    intro index place fs₁ config _ ready _
    obtain ⟨_, fs₂, index, directory⟩ := bind_ok_iff.1 ready
    obtain ⟨_, fs₃, home, opened⟩ := bind_ok_iff.1 index
    obtain ⟨_, fs₄, made, same⟩ := bind_ok_iff.1 directory
    obtain ⟨_, rfl⟩ := pure_ok_iff.1 same
    have none := ((h.after ((makesNoLink_createDirectories _).1 _ home)).after
      (makesNoLink_openFile opened)).after ((makesNoLink_createDirectories _).1 _ made)
    exact ⟨by simp [none.linksOn_eq], by simp [none.linksOn_eq]⟩
  cases c with
  | put now name origin t => exact fun _ => keeps name origin
  | replace now name origin t => exact fun _ => keeps name origin
  | _ => trivial

/-- Whatever calls are made from a fresh home without links on, the registry was used as a
store asks for. -/
theorem reached_of_noLinks (fresh : r.IsFresh fs) (free : NoLinks fs) {calls : List Call}
    (timed : ∀ c ∈ calls, c.IsTimed) :
    r.Reached (calls.foldl (fun fs c => c.after r fs) fs) := by
  have run {fs : FileSystem} (reached : r.Reached fs) (free : NoLinks fs) :
      r.Reached (calls.foldl (fun fs c => c.after r fs) fs) := by
    induction calls generalizing fs with
    | nil => exact reached
    | cons c calls ih =>
      have next := reached.call c (timed c List.mem_cons_self) (c.keepsWays_of_noLinks free)
      exact ih (fun c mem => timed c (List.mem_cons_of_mem _ mem)) next
        (free.after (c.makesNoLink fs))
  exact run (.fresh fresh) free

end FiledRegistry

end Scaffold
