import Scaffold.Instantiation.Basic

/-!
# Runs of actions

A sequence of actions gives a result exactly if its first action does and the others do
from there. These rules take a run apart without unfolding how actions are put together.
-/

namespace Scaffold

section

variable {ε σ α β : Type} {s s' : σ}

theorem bind_ok_iff {x : EStateM ε σ α} {f : α → EStateM ε σ β} {b : β} :
    (x >>= f) s = .ok b s' ↔ ∃ a s₁, x s = .ok a s₁ ∧ f a s₁ = .ok b s' := by
  have run : (x >>= f) s = match x s with
    | .ok a s₁ => f a s₁
    | .error e s₁ => .error e s₁ := rfl
  rw [run]
  cases x s with
  | ok a s₁ =>
    constructor
    · exact fun h => ⟨a, s₁, rfl, h⟩
    · rintro ⟨_, _, ⟨⟩, h⟩
      exact h
  | error e s₁ => simp

theorem bind_error_iff {x : EStateM ε σ α} {f : α → EStateM ε σ β} {e : ε} :
    (x >>= f) s = .error e s'
      ↔ x s = .error e s' ∨ ∃ a s₁, x s = .ok a s₁ ∧ f a s₁ = .error e s' := by
  have run : (x >>= f) s = match x s with
    | .ok a s₁ => f a s₁
    | .error e s₁ => .error e s₁ := rfl
  rw [run]
  cases x s with
  | ok a s₁ =>
    constructor
    · exact fun h => .inr ⟨a, s₁, rfl, h⟩
    · intro h
      rcases h with refused | ⟨_, _, made, h⟩
      · simp at refused
      · cases made
        exact h
  | error e s₁ => simp

theorem bind_of_ok {x : EStateM ε σ α} {f : α → EStateM ε σ β} {a : α} (h : x s = .ok a s') :
    (x >>= f) s = f a s' := by
  change EStateM.bind x f s = f a s'
  simp only [EStateM.bind, h]

theorem bind_of_error {x : EStateM ε σ α} {f : α → EStateM ε σ β} {e : ε}
    (h : x s = .error e s') : (x >>= f) s = .error e s' :=
  bind_error_iff.2 (.inl h)

/-- Runs that begin alike and go on alike are the same. -/
theorem bind_congr_of_ok {x y : EStateM ε σ α} {f g : α → EStateM ε σ β} (first : x s = y s)
    (more : ∀ a s₁, x s = .ok a s₁ → f a s₁ = g a s₁) : (x >>= f) s = (y >>= g) s := by
  cases run : x s with
  | ok a s₁ => rw [bind_of_ok run, bind_of_ok (first.symm.trans run), more a s₁ run]
  | error e s₁ => rw [bind_of_error run, bind_of_error (first.symm.trans run)]

theorem pure_ok_iff {a b : α} :
    (pure a : EStateM ε σ α) s = .ok b s' ↔ a = b ∧ s = s' := by
  have run : (pure a : EStateM ε σ α) s = .ok a s := rfl
  rw [run]
  simp

theorem get_ok_iff {t : σ} :
    (MonadState.get : EStateM ε σ σ) s = .ok t s' ↔ s = t ∧ s = s' := by
  have run : (MonadState.get : EStateM ε σ σ) s = .ok s s := rfl
  rw [run]
  simp

theorem get_ne_error {e : ε} : (MonadState.get : EStateM ε σ σ) s ≠ .error e s' := by
  have run : (MonadState.get : EStateM ε σ σ) s = .ok s s := rfl
  rw [run]
  simp

theorem throw_ne_ok {e : ε} {a : α} : (throw e : EStateM ε σ α) s ≠ .ok a s' := by
  have run : (throw e : EStateM ε σ α) s = .error e s := rfl
  rw [run]
  simp

theorem throw_error_iff {e e' : ε} :
    (throw e : EStateM ε σ α) s = .error e' s' ↔ e = e' ∧ s = s' := by
  have run : (throw e : EStateM ε σ α) s = .error e s := rfl
  rw [run]
  simp

variable {x : EStateM.Result ε σ α}

/-! What a run on given files does can be decided. -/

instance decidableOk : Decidable (∃ a s, x = .ok a s) :=
  match x with
  | .ok a s => isTrue ⟨a, s, rfl⟩
  | .error .. => isFalse (by simp)

instance decidableOkAnd {P : α → σ → Prop} [∀ a s, Decidable (P a s)] :
    Decidable (∃ a s, x = .ok a s ∧ P a s) :=
  match x with
  | .ok a s => decidable_of_iff (P a s) ⟨fun holds => ⟨a, s, rfl, holds⟩, by
      rintro ⟨_, _, ⟨⟩, holds⟩
      exact holds⟩
  | .error .. => isFalse (by simp)

instance decidableError : Decidable (∃ e s, x = .error e s) :=
  match x with
  | .ok .. => isFalse (by simp)
  | .error e s => isTrue ⟨e, s, rfl⟩

instance decidableErrorAnd {P : ε → σ → Prop} [∀ e s, Decidable (P e s)] :
    Decidable (∃ e s, x = .error e s ∧ P e s) :=
  match x with
  | .ok .. => isFalse (by simp)
  | .error e s => decidable_of_iff (P e s) ⟨fun holds => ⟨e, s, rfl, holds⟩, by
      rintro ⟨_, _, ⟨⟩, holds⟩
      exact holds⟩

instance decidableExceptOk {x : Except ε α} : Decidable (∃ a, x = .ok a) :=
  match x with
  | .ok a => isTrue ⟨a, rfl⟩
  | .error _ => isFalse (by simp)

end

theorem FileAction.query_state {α : Type} {ask : FileSystem → Except IoError α}
    {fs fs' : FileSystem} :
    (∀ a, query ask fs = .ok a fs' → fs' = fs) ∧ ∀ why, query ask fs = .error why fs' → fs' = fs := by
  unfold query
  cases ask fs <;> simp +contextual [eq_comm]

theorem FileAction.run_ok_iff {α : Type} {x : FileAction α} {fs fs' : FileSystem} {a : α} :
    x.run fs = .ok a fs' ↔ x fs = .ok a fs' := by
  unfold FileAction.run
  cases x fs <;> simp

theorem FileAction.run_error {α : Type} {x : FileAction α} {fs fs' : FileSystem} {e : Error}
    (h : x.run fs = .error e fs') : ∃ why, e = .io why ∧ x fs = .error why fs' := by
  unfold FileAction.run at h
  split at h
  · simp at h
  · rename_i why fs₁ error
    simp only [EStateM.Result.error.injEq] at h
    obtain ⟨rfl, rfl⟩ := h
    exact ⟨why, rfl, error⟩

theorem Action.ofExcept_ok_iff {α : Type} {x : Except Error α} {fs fs' : FileSystem} {a : α} :
    Action.ofExcept x fs = .ok a fs' ↔ x = .ok a ∧ fs = fs' := by
  unfold Action.ofExcept
  cases x <;> simp

theorem Action.ofExcept_error_iff {α : Type} {x : Except Error α} {fs fs' : FileSystem}
    {e : Error} : Action.ofExcept x fs = .error e fs' ↔ x = .error e ∧ fs = fs' := by
  unfold Action.ofExcept
  cases x <;> simp

namespace Action

variable {α β : Type} {fs fs' : FileSystem}

/-- The answer of an operation, whatever becomes of the files. -/
def answer (x : Action α) (fs : FileSystem) : Except Error α :=
  match x fs with
  | .ok a _ => .ok a
  | .error e _ => .error e

/-- The files after an operation, whatever its answer. -/
def after (x : Action α) (fs : FileSystem) : FileSystem :=
  match x fs with
  | .ok _ fs' => fs'
  | .error _ fs' => fs'

theorem after_of_ok {x : Action α} {a : α} (h : x fs = .ok a fs') : x.after fs = fs' := by
  simp only [after, h]

theorem after_of_error {x : Action α} {e : Error} (h : x fs = .error e fs') :
    x.after fs = fs' := by
  simp only [after, h]

/-- Whatever its answer, the operation changes the files in this way. -/
def Respects (R : FileSystem → FileSystem → Prop) (x : Action α) : Prop := ∀ fs, R fs (x.after fs)

variable {R : FileSystem → FileSystem → Prop}

theorem Respects.bind {x : Action α} {f : α → Action β} (h : Respects R x)
    (more : ∀ a, Respects R (f a))
    (trans : ∀ fs₁ fs₂ fs₃, R fs₁ fs₂ → R fs₂ fs₃ → R fs₁ fs₃) : Respects R (x >>= f) := by
  intro fs
  have first := h fs
  cases run : x fs with
  | ok a fs₁ =>
    rw [after_of_ok run] at first
    rw [after, bind_of_ok run]
    exact trans _ _ _ first (more a fs₁)
  | error e fs₁ =>
    rw [after_of_error run] at first
    rwa [after_of_error (bind_of_error run)]

/-- The operation only asks. -/
abbrev Asks (x : Action α) : Prop := Respects (fun fs fs' => fs' = fs) x

theorem Asks.bind {x : Action α} {f : α → Action β} (h : Asks x) (more : ∀ a, Asks (f a)) :
    Asks (x >>= f) :=
  Respects.bind h more fun _ _ _ first second => second.trans first

theorem asks_pure (a : α) : Asks (pure a) := fun _ => rfl

theorem asks_throw (e : Error) : Asks (throw e : Action α) := fun _ => rfl

theorem asks_ofExcept (x : Except Error α) : Asks (ofExcept x) := by
  intro fs
  cases x <;> rfl

theorem answer_of_ok {x : Action α} {a : α} (h : x fs = .ok a fs') : x.answer fs = .ok a := by
  simp only [answer, h]

theorem answer_of_error {x : Action α} {e : Error} (h : x fs = .error e fs') :
    x.answer fs = .error e := by
  simp only [answer, h]

/-- What is only asked leaves the files as they are. -/
theorem Asks.run_of_answer {x : Action α} {a : α} (h : Asks x) (answer : x.answer fs = .ok a) :
    x fs = .ok a fs := by
  have same := h fs
  cases run : x fs with
  | ok b fs' =>
    rw [answer_of_ok run] at answer
    rw [after_of_ok run] at same
    rw [Except.ok.inj answer, same]
  | error e fs' => simp [answer_of_error run] at answer

theorem Asks.run_of_answer_error {x : Action α} {e : Error} (h : Asks x)
    (answer : x.answer fs = .error e) : x fs = .error e fs := by
  have same := h fs
  cases run : x fs with
  | ok a fs' => simp [answer_of_ok run] at answer
  | error e' fs' =>
    rw [answer_of_error run] at answer
    rw [after_of_error run] at same
    rw [Except.error.inj answer, same]

theorem isOk_answer_iff {x : Action α} :
    (x.answer fs).isOk = true ↔ ∃ a fs', x fs = .ok a fs' := by
  cases run : x fs with
  | ok a fs' => simp [answer_of_ok run, Except.isOk, Except.toBool]
  | error e fs' => simp [answer_of_error run, Except.isOk, Except.toBool]

theorem answer_bind_of_ok {x : Action α} {f : α → Action β} {a : α} (h : x fs = .ok a fs') :
    (x >>= f).answer fs = (f a).answer fs' := by
  simp only [answer, bind_of_ok h]

theorem answer_bind_of_error {x : Action α} {f : α → Action β} {e : Error}
    (h : x fs = .error e fs') : (x >>= f).answer fs = .error e :=
  answer_of_error (bind_of_error h)

end Action

end Scaffold
