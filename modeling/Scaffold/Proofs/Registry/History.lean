import Scaffold.Proofs.Job
import Scaffold.Proofs.Registry.Reached
import Scaffold.Registry.Memory

/-!
# Histories of calls

A history is a list of calls that are made one after the other, whatever they answer. Any
registry can go through it. One in files does so by what its operations do to the files,
one in memory by what they do to its map.
-/

namespace Scaffold

/-- What a registry answers to a call. -/
inductive Answer
  | contains (yes : Bool)
  | template (stored : StoredTemplate)
  | record (record : Record)
  | list (entries : List (TemplateName × Record))

namespace Record

/-- The record without its time. -/
def untimed (r : Record) : Record := { r with createdAt := none }

end Record

namespace Answer

/-- The answer without the times in it. -/
def untimed : Answer → Answer
  | contains yes => contains yes
  | template stored => template { stored with record := stored.record.untimed }
  | record r => record r.untimed
  | list entries => list (entries.map fun e => (e.1, e.2.untimed))

end Answer

namespace Job

variable {ρ α β : Type}

/-- The answer of a step, whatever becomes of the workspace. -/
def answer (x : Job ρ α) (w : Workspace ρ) : Except Error α :=
  match x w with
  | .ok a _ => .ok a
  | .error e _ => .error e

/-- The workspace after a step, whatever its answer. -/
def after (x : Job ρ α) (w : Workspace ρ) : Workspace ρ :=
  match x w with
  | .ok _ w' => w'
  | .error _ w' => w'

theorem answer_map (x : Job ρ α) (f : α → β) (w : Workspace ρ) :
    (x >>= fun a => pure (f a)).answer w = (x.answer w).map f := by
  cases run : x w with
  | ok a w' =>
    simp only [answer, bind_of_ok run, run]
    rfl
  | error e w' =>
    simp only [answer, bind_of_error run, run]
    rfl

theorem after_map (x : Job ρ α) (f : α → β) (w : Workspace ρ) :
    (x >>= fun a => pure (f a)).after w = x.after w := by
  cases run : x w with
  | ok a w' =>
    simp only [after, bind_of_ok run, run]
    rfl
  | error e w' => simp only [after, bind_of_error run, run]

theorem answer_modify (g : Workspace ρ → Workspace ρ) (x : Job ρ α) (w : Workspace ρ) :
    ((modify g : Job ρ PUnit) >>= fun _ => x).answer w = x.answer (g w) := rfl

theorem after_modify (g : Workspace ρ → Workspace ρ) (x : Job ρ α) (w : Workspace ρ) :
    ((modify g : Job ρ PUnit) >>= fun _ => x).after w = x.after (g w) := rfl

end Job

namespace FiledRegistry

variable {r : FiledRegistry}

namespace Call

/-- Make the call. The clock shows its time when a template is stored. -/
def make {ρ : Type} [Registry ρ] : Call → Job ρ Answer
  | contains name => do return .contains (← Registry.contains name)
  | get name => do return .template (← Registry.get name)
  | list => do return .list (← Registry.list)
  | put now name origin t => do
    modify fun w => { w with clock := now }
    return .record (← Registry.put name origin t)
  | replace now name origin t => do
    modify fun w => { w with clock := now }
    return .record (← Registry.replace name origin t)
  | delete name => do return .template (← Registry.delete name)

/-- What the registry answers when the files look like this. -/
def answer (r : FiledRegistry) : Call → FileSystem → Except Error Answer
  | contains name, fs => ((r.contains name).answer fs).map .contains
  | get name, fs => ((r.get name).answer fs).map .template
  | list, fs => (r.list.answer fs).map .list
  | put now name origin t, fs => ((r.put now name origin t).answer fs).map .record
  | replace now name origin t, fs => ((r.replace now name origin t).answer fs).map .record
  | delete name, fs => ((r.delete name).answer fs).map .template

/-- What a registry in memory answers, and the registry afterwards. -/
def onMemory : Call → MemoryRegistry → Except Error Answer × MemoryRegistry
  | contains name, m => ran .contains m (.ok (m.templates.contains name, m))
  | get name, m => ran .template m ((m.get name).map fun stored => (stored, m))
  | list, m => ran .list m (.ok (m.list, m))
  | put _ name origin t, m => ran .record m (m.put name origin t)
  | replace _ name origin t, m => ran .record m (m.replace name origin t)
  | delete name, m => ran .template m (m.delete name)
where
  /-- A refused change leaves the registry as it was. -/
  ran {α : Type} (f : α → Answer) (m : MemoryRegistry) :
      Except Error (α × MemoryRegistry) → Except Error Answer × MemoryRegistry
    | .ok (a, m') => (.ok (f a), m')
    | .error e => (.error e, m)

end Call

end FiledRegistry

open FiledRegistry (Call)

/-- The answers to the calls of a history. -/
def answers {ρ : Type} [Registry ρ] : List Call → Workspace ρ → List (Except Error Answer)
  | [], _ => []
  | c :: more, w => (c.make : Job ρ Answer).answer w :: answers more ((c.make : Job ρ Answer).after w)

/-- The workspace at the end of a history. -/
def afterCalls {ρ : Type} [Registry ρ] (calls : List Call) (w : Workspace ρ) : Workspace ρ :=
  calls.foldl (fun w c => (c.make : Job ρ Answer).after w) w

namespace FiledRegistry

private theorem answer_step {α : Type} (f : FiledRegistry → Instant → Action α)
    (w : Workspace FiledRegistry) :
    (step f : Job FiledRegistry α).answer w = (f w.registry w.clock).answer w.files := by
  unfold Job.answer Action.answer step Job.onFiles
  cases f w.registry w.clock w.files <;> rfl

theorem after_step {α : Type} (f : FiledRegistry → Instant → Action α)
    (w : Workspace FiledRegistry) :
    ((step f : Job FiledRegistry α).after w).files = (f w.registry w.clock).after w.files
      ∧ ((step f : Job FiledRegistry α).after w).registry = w.registry := by
  unfold Job.after Action.after step Job.onFiles
  cases f w.registry w.clock w.files <;> exact ⟨rfl, rfl⟩

/-- A call of a registry in files answers by its files. -/
theorem Call.answer_make (c : Call) (w : Workspace FiledRegistry) :
    (c.make : Job FiledRegistry Answer).answer w = c.answer w.registry w.files := by
  cases c with
  | contains | get | list | delete =>
    rw [make, Job.answer_map]
    exact congrArg (Except.map _) (answer_step _ w)
  | put now | replace now =>
    rw [make, Job.answer_modify, Job.answer_map]
    exact congrArg (Except.map _) (answer_step _ { w with clock := now })

/-- What it changes are its files. -/
theorem Call.after_make (c : Call) (w : Workspace FiledRegistry) :
    ((c.make : Job FiledRegistry Answer).after w).files = c.after w.registry w.files
      ∧ ((c.make : Job FiledRegistry Answer).after w).registry = w.registry := by
  cases c with
  | contains | get | list | delete =>
    rw [make, Job.after_map]
    exact after_step _ w
  | put now | replace now =>
    rw [make, Job.after_modify, Job.after_map]
    exact after_step _ { w with clock := now }

end FiledRegistry

namespace MemoryRegistry

private theorem answer_step {α : Type} (f : MemoryRegistry → Except Error (α × MemoryRegistry))
    (g : α → Answer) (w : Workspace MemoryRegistry) :
    ((step f : Job MemoryRegistry α).answer w).map g
        = (FiledRegistry.Call.onMemory.ran g w.registry (f w.registry)).1
      ∧ ((step f : Job MemoryRegistry α).after w).registry
        = (FiledRegistry.Call.onMemory.ran g w.registry (f w.registry)).2 := by
  unfold Job.answer Job.after step
  cases f w.registry <;> exact ⟨rfl, rfl⟩

/-- A call of a registry in memory answers by its map and changes nothing else. -/
theorem make_onMemory (c : Call) (w : Workspace MemoryRegistry) :
    (c.make : Job MemoryRegistry Answer).answer w = (c.onMemory w.registry).1
      ∧ ((c.make : Job MemoryRegistry Answer).after w).registry = (c.onMemory w.registry).2 := by
  cases c with
  | contains | get | list | delete =>
    rw [Call.make, Job.answer_map, Job.after_map]
    exact answer_step _ _ w
  | put now | replace now =>
    rw [Call.make, Job.answer_modify, Job.after_modify, Job.answer_map, Job.after_map]
    exact answer_step _ _ { w with clock := now }

end MemoryRegistry

end Scaffold
