import Scaffold.Proofs.Template.Spelled

/-!
# Arguments that agree

If the tokens of one name that entries spell are all written alike, no default contradicts
another one, and the contract that is extracted has exactly the arguments that are spelled.
-/

namespace Scaffold

variable {a : Argument} {n d : Text} {l : List Argument} {e : Entry} {entries : List Entry}

/-- Arguments of one name are the same. -/
def Argument.Agree (l : List Argument) : Prop := ∀ a ∈ l, ∀ b ∈ l, a.name = b.name → a = b

namespace Argument

namespace Agree

theorem consistent (h : Agree l) : Consistent l :=
  fun _ _ _ mem mem' => Option.some.inj (congrArg default? (h _ mem _ mem' rfl))

theorem firstDefault?_eq (h : Agree l) (mem : a ∈ l) : firstDefault? a.name l = a.default? := by
  cases first : firstDefault? a.name l with
  | some d => exact congrArg default? (h _ (exists_of_firstDefault? first) a mem rfl)
  | none =>
    cases given : a.default? with
    | none => rfl
    | some d =>
      have found := isSome_firstDefault? mem (Option.isSome_of_mem given)
      simp [first] at found

end Agree

/-- A default that is collected is given by an occurrence. -/
theorem mem_of_mem_collect (mem : ⟨n, some d⟩ ∈ collect l) : ⟨n, some d⟩ ∈ l := by
  rw [collect_eq_map] at mem
  obtain ⟨_, _, same⟩ := List.mem_map.1 mem
  obtain ⟨rfl, first⟩ := Argument.mk.inj same
  exact exists_of_firstDefault? first

/-- Occurrences that agree are all collected. -/
theorem mem_collect_iff (agree : Agree l) : a ∈ collect l ↔ a ∈ l := by
  have known : ∀ b ∈ l, Contract.get? (collect l) b.name = some b := by
    intro b mem
    rw [Contract.get?_collect, if_pos (List.mem_map_of_mem mem), agree.firstDefault?_eq mem]
  constructor
  · intro mem
    obtain ⟨b, there, same⟩ := List.mem_map.1 (mem_names_collect.1 (List.mem_map_of_mem mem))
    have found := Contract.get?_of_mem nodup_names_collect mem
    rw [← same, known b there] at found
    exact Option.some.inj found ▸ there
  · exact fun mem => List.mem_of_find?_eq_some (known a mem)

end Argument

/-! ## What entries spell -/

/-- A token in the name or in the content of the entry spells the argument. -/
def Entry.Spells (e : Entry) (a : Argument) : Prop :=
  a ∈ Placeholder.arguments e.name
    ∨ ∃ content, e.content = some content ∧ a ∈ Placeholder.arguments content

/-- The tokens of one name in the entries are written alike. -/
def SpellAlike (entries : List Entry) : Prop :=
  ∀ e ∈ entries, ∀ e' ∈ entries, ∀ a b, e.Spells a → e'.Spells b → a.name = b.name →
    Placeholder.token a = Placeholder.token b

theorem Entry.spells_iff : e.Spells a ↔ a ∈ e.spelled := by
  cases content : e.content <;> simp [Spells, spelled, content]

theorem mem_spelledIn_iff : a ∈ spelledIn entries ↔ ∃ e ∈ entries, e.Spells a := by
  simp only [spelledIn, List.mem_flatMap, Entry.spells_iff]

/-- If no two tokens contradict each other, no two strings do. -/
theorem Argument.Consistent.declaredIn (h : Consistent (spelledIn entries)) :
    Consistent (declaredIn entries) := by
  have spelled : ∀ n d, ⟨n, some d⟩ ∈ Scaffold.declaredIn entries →
      ⟨n, some d⟩ ∈ spelledIn entries := by
    intro n d mem
    obtain ⟨e, there, inside⟩ := List.mem_flatMap.1 mem
    obtain ⟨s, read, declared⟩ := List.mem_flatMap.1 inside
    rw [spelledIn_eq_flatMap_texts]
    exact List.mem_flatMap.2
      ⟨s, List.mem_flatMap.2 ⟨e, there, read⟩, mem_of_mem_collect declared⟩
  intro n d d' mem mem'
  exact h n d d' (spelled n d mem) (spelled n d' mem')

/-- From entries whose tokens are written alike a contract is extracted, which has the
arguments that they spell. -/
theorem Contract.extract_of_spellAlike (h : SpellAlike entries) :
    ∃ contract, extract entries = .ok contract
      ∧ ∀ a, a ∈ contract ↔ ∃ e ∈ entries, e.Spells a := by
  have agree : Argument.Agree (spelledIn entries) := by
    intro a mem b mem' name
    obtain ⟨e, there, spells⟩ := mem_spelledIn_iff.1 mem
    obtain ⟨e', there', spells'⟩ := mem_spelledIn_iff.1 mem'
    exact Placeholder.eq_of_token_eq name (h e there e' there' a b spells spells' name)
  have extracted : extract entries = .ok (Argument.collect (spelledIn entries)) :=
    extract_ok_iff.2 ⟨agree.consistent.declaredIn, collect_declaredIn entries⟩
  refine ⟨_, extracted, fun a => ?_⟩
  rw [Argument.mem_collect_iff agree, mem_spelledIn_iff]

end Scaffold
