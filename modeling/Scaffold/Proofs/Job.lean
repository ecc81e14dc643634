import Scaffold.Prompt
import Scaffold.Proofs.Action

/-!
# Steps of commands

A step of a command acts on a whole workspace, but most steps only look at its files: a
check of a text, a question to the file system, a turn with a user. A command that puts
such steps in front of one that writes leaves the files alone unless it gets to the last
one.
-/

namespace Scaffold

namespace Job

variable {ρ α β : Type} {w w' : Workspace ρ} {e : Error}

theorem onFiles_ok_iff {x : Action α} {a : α} :
    onFiles x w = .ok a w'
      ↔ ∃ fs, x w.files = .ok a fs ∧ w' = { w with files := fs } := by
  unfold onFiles
  cases x w.files <;> simp [and_assoc, eq_comm (b := w')]

theorem onFiles_error_iff {x : Action α} :
    onFiles x w = .error e w'
      ↔ ∃ fs, x w.files = .error e fs ∧ w' = { w with files := fs } := by
  unfold onFiles
  cases x w.files <;> simp [and_assoc, eq_comm (b := w')]

/-- A step that only asks leaves the workspace as it is. -/
theorem onFiles_ok_iff_of_asks {x : Action α} (asks : x.Asks) {a : α} :
    onFiles x w = .ok a w' ↔ x.answer w.files = .ok a ∧ w' = w := by
  rw [onFiles_ok_iff]
  constructor
  · rintro ⟨fs, run, rfl⟩
    obtain rfl := (Action.after_of_ok run).symm.trans (asks w.files)
    exact ⟨Action.answer_of_ok run, rfl⟩
  · rintro ⟨answer, rfl⟩
    exact ⟨w'.files, asks.run_of_answer answer, rfl⟩

theorem query_ok_iff {ask : FileSystem → Except Error α} {a : α} :
    query ask w = .ok a w' ↔ ask w.files = .ok a ∧ w' = w := by
  unfold query
  cases ask w.files <;> simp [eq_comm]

theorem check_ok_iff {x : Except Error α} {a : α} :
    check x w = .ok a w' ↔ x = .ok a ∧ w' = w :=
  query_ok_iff

/-- The step leaves the files as they are, whatever its answer. -/
structure Reads (x : Job ρ α) : Prop where
  ok : ∀ w a w', x w = .ok a w' → w'.files = w.files
  error : ∀ w e w', x w = .error e w' → w'.files = w.files

theorem reads_pure (a : α) : Reads (pure a : Job ρ α) := by
  constructor
  · intro w b w' h
    rw [(pure_ok_iff.1 h).2]
  · intro w e w' h
    simp [pure, EStateM.pure] at h

theorem reads_get : Reads (get : Job ρ (Workspace ρ)) := by
  constructor
  · intro w a w' h
    rw [(get_ok_iff.1 h).2]
  · intro w e w' h
    exact absurd h get_ne_error

theorem reads_query (ask : FileSystem → Except Error α) : Reads (query ask : Job ρ α) := by
  constructor
  · intro w a w' h
    rw [(query_ok_iff.1 h).2]
  · intro w e w' h
    unfold query at h
    split at h
    · simp at h
    · simp only [EStateM.Result.error.injEq] at h
      rw [h.2]

theorem reads_check (x : Except Error α) : Reads (check x : Job ρ α) := reads_query _

theorem reads_onFiles {x : Action α} (asks : x.Asks) : Reads (onFiles x : Job ρ α) := by
  constructor
  · intro w a w' h
    obtain ⟨fs, run, rfl⟩ := onFiles_ok_iff.1 h
    exact (Action.after_of_ok run).symm.trans (asks w.files)
  · intro w e w' h
    obtain ⟨fs, run, rfl⟩ := onFiles_error_iff.1 h
    exact (Action.after_of_error run).symm.trans (asks w.files)

/-- A user is shown texts and asked, and no file is touched. -/
theorem reads_ask (p : Prompt) (c : Contract) (values : Values) :
    Reads (p.ask c values : Job ρ Values) := by
  constructor
  · intro w a w' h
    unfold Prompt.ask at h
    split at h
    · simp only [EStateM.Result.ok.injEq] at h
      rw [← h.2]
    · simp at h
  · intro w e w' h
    unfold Prompt.ask at h
    split at h
    · simp at h
    · simp only [EStateM.Result.error.injEq] at h
      rw [← h.2]

/-- The step changes files only if it gives a result or the file system refuses. -/
def FailsClean (x : Job ρ α) : Prop :=
  ∀ w e w', x w = .error e w' → (∃ why, e = .io why) ∨ w'.files = w.files

/-- Steps that only look may stand in front. -/
theorem FailsClean.bind {x : Job ρ α} {f : α → Job ρ β} (reads : Reads x)
    (more : ∀ a, FailsClean (f a)) : FailsClean (x >>= f) := by
  intro w e w' h
  rcases bind_error_iff.1 h with first | ⟨a, w₁, first, rest⟩
  · exact .inr (reads.error w e w' first)
  · rw [← reads.ok w a w₁ first]
    exact more a w₁ e w' rest

theorem failsClean_onFiles {x : Action α}
    (h : ∀ fs e fs', x fs = .error e fs' → (∃ why, e = .io why) ∨ fs' = fs) :
    FailsClean (onFiles x : Job ρ α) := by
  intro w e w' failed
  obtain ⟨fs, run, rfl⟩ := onFiles_error_iff.1 failed
  exact h w.files e fs run

end Job

end Scaffold
