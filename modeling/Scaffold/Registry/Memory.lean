import Scaffold.Registry.Basic

/-!
# A registry in memory

The plainest registry: a map from names to records and templates. It touches no
file and keeps no time.
-/

namespace Scaffold

/-- Templates by name, kept in memory. -/
structure MemoryRegistry where
  templates : SortedMap TemplateName (Record × Template)

namespace MemoryRegistry

/-- The registry without templates. -/
def empty : MemoryRegistry := ⟨SortedMap.empty⟩

/-- The template of a name. -/
def get (r : MemoryRegistry) (name : TemplateName) : Except Error StoredTemplate :=
  match r.templates.get? name with
  | none => .error (.templateNotFound name.text)
  | some (record, template) => .ok ⟨name, record, template⟩

/-- Store a template under a free name. -/
def put (r : MemoryRegistry) (name : TemplateName) (origin : Origin) (t : Template) :
    Except Error (Record × MemoryRegistry) :=
  if r.templates.contains name then .error (.templateExists name.text)
  else
    let record := origin.record name none
    .ok (record, ⟨r.templates.insert name (record, t)⟩)

/-- Store a template in the stead of the one of its name. -/
def replace (r : MemoryRegistry) (name : TemplateName) (origin : Origin) (t : Template) :
    Except Error (Record × MemoryRegistry) :=
  if r.templates.contains name then
    let record := origin.record name none
    .ok (record, ⟨r.templates.insert name (record, t)⟩)
  else .error (.templateNotFound name.text)

/-- Take a template away. -/
def delete (r : MemoryRegistry) (name : TemplateName) :
    Except Error (StoredTemplate × MemoryRegistry) :=
  (r.get name).map fun stored => (stored, ⟨r.templates.erase name⟩)

/-- All names with their records. -/
def list (r : MemoryRegistry) : List (TemplateName × Record) :=
  r.templates.entries.map fun e => (e.1, e.2.1)

/-- Change the registry of a workspace. -/
def step {α : Type} (f : MemoryRegistry → Except Error (α × MemoryRegistry)) :
    Job MemoryRegistry α := fun w =>
  match f w.registry with
  | .ok (a, r) => .ok a { w with registry := r }
  | .error e => .error e w

instance : Registry MemoryRegistry where
  contains name := step fun r => .ok (r.templates.contains name, r)
  get name := step fun r => (r.get name).map fun stored => (stored, r)
  put name origin t := step fun r => r.put name origin t
  replace name origin t := step fun r => r.replace name origin t
  delete name := step fun r => r.delete name
  list := step fun r => .ok (r.list, r)

end MemoryRegistry

end Scaffold
