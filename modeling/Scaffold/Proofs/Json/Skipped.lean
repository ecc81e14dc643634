import Scaffold.Proofs.Json.Written

/-!
# Written values are passed over

What `Layout` writes can also stand where nobody asks for it: an unknown member of an object
is passed over, whatever is written in it. `Skips` says so of a layout in front of any text
and inside any brackets that are open.
-/

namespace Scaffold

namespace Json

open Layout

variable {write : Layout} {opened opened' : List Char} {awaited next : Awaited}
  {t rest space : Text}

/-- Go on behind a value, with these brackets open around it. -/
def skipBehind (opened : List Char) (rest : Text) : Except Fault (Unit × Text) :=
  match behind opened with
  | none => .ok ((), rest)
  | some next => skipFrom opened next rest

/-- What is written is passed over where a value is awaited, behind any space. -/
structure Skips (write : Layout) : Prop where
  /-- A written value begins with neither a space nor a closing bracket. -/
  start : ∀ depth, ∃ c t, write depth = c :: t ∧ isSpace c = false ∧ c ≠ ']'
  run : ∀ depth (opened : List Char) (awaited : Awaited) (space rest : Text),
    awaited = .value ∨ awaited = .firstItem → (∀ c ∈ space, isSpace c = true) →
      skipFrom opened awaited (space ++ write depth ++ rest) = skipBehind opened rest

/-- Behind a part, what is awaited next is passed over. -/
private theorem skipFrom_part (part : skipPart opened awaited t = .ok (opened', some next, rest)) :
    skipFrom opened awaited t = skipFrom opened' next rest := by
  rw [skipFrom]
  split
  · rename_i found
    simp [part] at found
  · rename_i found
    simp [part] at found
  · rename_i found
    rw [part] at found
    simp only [Except.ok.injEq, Prod.mk.injEq, Option.some.injEq] at found
    obtain ⟨rfl, rfl, rfl⟩ := found
    rfl

/-- Behind the end of a value, it goes on behind that value. -/
private theorem skipFrom_end
    (part : skipPart opened awaited t = .ok (opened', behind opened', rest)) :
    skipFrom opened awaited t = skipBehind opened' rest := by
  unfold skipBehind
  split
  · rename_i none
    rw [skipFrom]
    split
    · rename_i found
      simp [part] at found
    · rename_i found
      rw [part] at found
      simp only [Except.ok.injEq, Prod.mk.injEq] at found
      rw [found.2.2]
    · rename_i found
      simp [part, none] at found
  · rename_i more
    exact skipFrom_part (more ▸ part)

/-! ## Texts -/

theorem Skips.text (t : Text) : Skips (Layout.text t) where
  start _ := ⟨'"', _, rfl, by decide, by decide⟩
  run depth opened awaited space rest asked hspace := by
    have front : skipSpace (space ++ Layout.text t depth ++ rest)
        = '"' :: (t.flatMap escape ++ '"' :: rest) := by
      rw [List.append_assoc, skipSpace_append hspace]
      simp [Layout.text, quoted, skipSpace, isSpace]
    have part : skipPart opened awaited (space ++ Layout.text t depth ++ rest)
        = .ok (opened, behind opened, rest) := by
      have atom : skipAtom ('"' :: (t.flatMap escape ++ '"' :: rest)) = .ok ((), rest) :=
        skipQuoted_flatMap_escape t rest
      unfold skipPart
      rw [front]
      rcases asked with rfl | rfl <;> simp [atom]
    exact skipFrom_end part

/-! ## Lists -/

private theorem skipPart_open {bracket : Char} (hspace : ∀ c ∈ space, isSpace c = true)
    (asked : awaited = .value ∨ awaited = .firstItem)
    (which : bracket = '[' ∧ next = .firstItem ∨ bracket = '{' ∧ next = .firstMember) :
    skipPart opened awaited (space ++ bracket :: t) = .ok (bracket :: opened, some next, t) := by
  have notSpace : isSpace bracket = false := by
    rcases which with ⟨rfl, _⟩ | ⟨rfl, _⟩ <;> decide
  simp only [skipPart, skipSpace_append hspace, skipSpace_cons_of_not notSpace]
  rcases which with ⟨rfl, rfl⟩ | ⟨rfl, rfl⟩ <;> rcases asked with rfl | rfl <;> simp

private theorem skipPart_comma (which : awaited = .nextItem ∧ next = .value
      ∨ awaited = .nextMember ∧ next = .key) :
    skipPart opened awaited (',' :: t) = .ok (opened, some next, t) := by
  simp only [skipPart, skipSpace_cons_of_not (c := ',') (by decide)]
  rcases which with ⟨rfl, rfl⟩ | ⟨rfl, rfl⟩ <;> simp

private theorem skipPart_close {bracket closing : Char} (depth : Nat)
    (which : closing = ']' ∧ awaited = .nextItem ∨ closing = '}' ∧ awaited = .nextMember) :
    skipPart (bracket :: opened) awaited ('\n' :: indent depth ++ closing :: rest)
      = .ok (opened, behind opened, rest) := by
  have front : skipSpace ('\n' :: indent depth ++ closing :: rest) = closing :: rest :=
    skipSpace_indent_append rfl (by rcases which with ⟨rfl, _⟩ | ⟨rfl, _⟩ <;> decide)
  simp only [skipPart, front]
  rcases which with ⟨rfl, rfl⟩ | ⟨rfl, rfl⟩ <;> simp

/-- The items behind one are passed over to the end of the list. -/
private theorem skipFrom_nextItem {items : List Layout} (h : ∀ write ∈ items, Skips write)
    (depth : Nat) (opened : List Char) (rest : Text) :
    skipFrom ('[' :: opened) .nextItem (behindMember ']' items depth ++ rest)
      = skipBehind opened rest := by
  induction items with
  | nil =>
    apply skipFrom_end
    simpa [behindMember_nil] using skipPart_close depth (.inl ⟨rfl, rfl⟩)
  | cons write items ih =>
    have item := (h write List.mem_cons_self).run (depth + 1) ('[' :: opened) .value
      ('\n' :: indent (depth + 1)) (behindMember ']' items depth ++ rest) (.inl rfl)
      fun _ => isSpace_of_mem_indent
    have part : skipPart ('[' :: opened) .nextItem
        (behindMember ']' (write :: items) depth ++ rest) = .ok ('[' :: opened, some .value,
          '\n' :: indent (depth + 1) ++ write (depth + 1) ++ (behindMember ']' items depth ++ rest)) := by
      rw [behindMember_cons, List.cons_append]
      simpa using skipPart_comma (.inl ⟨rfl, rfl⟩)
    rw [skipFrom_part part, item]
    exact ih fun w mem => h w (List.mem_cons_of_mem _ mem)

/-- A list is passed over if each item is. -/
theorem Skips.list {items : List Layout} (h : ∀ write ∈ items, Skips write) :
    Skips (Layout.list items) where
  start depth := by
    cases items <;> exact ⟨'[', _, rfl, by decide, by decide⟩
  run depth opened awaited space rest asked hspace := by
    cases items with
    | nil =>
      have first : skipPart opened awaited (space ++ '[' :: ']' :: rest)
          = .ok ('[' :: opened, some .firstItem, ']' :: rest) :=
        skipPart_open hspace asked (.inl ⟨rfl, rfl⟩)
      have last : skipPart ('[' :: opened) .firstItem (']' :: rest)
          = .ok (opened, behind opened, rest) := by
        simp [skipPart, skipSpace, isSpace]
      rw [show space ++ Layout.list [] depth ++ rest = space ++ '[' :: ']' :: rest by
        simp [Layout.list, bracketed], skipFrom_part first]
      exact skipFrom_end last
    | cons write items =>
      have item := (h write List.mem_cons_self).run (depth + 1) ('[' :: opened) .firstItem
        ('\n' :: indent (depth + 1)) (behindMember ']' items depth ++ rest) (.inr rfl)
        fun _ => isSpace_of_mem_indent
      have first : skipPart opened awaited (space ++ Layout.list (write :: items) depth ++ rest)
          = .ok ('[' :: opened, some .firstItem, '\n' :: indent (depth + 1) ++ write (depth + 1)
            ++ (behindMember ']' items depth ++ rest)) := by
        rw [Layout.list, bracketed_cons]
        simpa using skipPart_open hspace asked (.inl ⟨rfl, rfl⟩)
      rw [skipFrom_part first, item]
      exact skipFrom_nextItem (fun w mem => h w (List.mem_cons_of_mem _ mem)) depth opened rest

/-! ## Objects -/

/-- A key with its colon is passed over from behind its opening quote, and so is the value. -/
private theorem skipMemberKey_member (key : Text) (opened : List Char) (t : Text) :
    skipMemberKey opened (key.flatMap escape ++ '"' :: ':' :: t) = .ok (opened, some .value, t) := by
  have colon : skipSpace (':' :: t) = ':' :: t := skipSpace_cons_of_not (by decide) t
  simp only [skipMemberKey, skipKey, skipQuoted_flatMap_escape, colon]

private theorem skipFrom_member (key : Text) (value : Skips write) (depth : Nat)
    (opened : List Char) (rest : Text) {space : Text} (hspace : ∀ c ∈ space, isSpace c = true)
    (asked : awaited = .key ∨ awaited = .firstMember) :
    skipFrom opened awaited (space ++ member key write depth ++ rest) = skipBehind opened rest := by
  have written : space ++ member key write depth ++ rest
      = space ++ '"' :: (key.flatMap escape ++ '"' :: ':' :: (' ' :: (write depth ++ rest))) := by
    simp [member, quoted]
  have part : skipPart opened awaited (space ++ member key write depth ++ rest)
      = .ok (opened, some .value, ' ' :: (write depth ++ rest)) := by
    rw [written]
    simp only [skipPart, skipSpace_append hspace, skipSpace_cons_of_not (c := '"') (by decide)]
    rcases asked with rfl | rfl <;> simp [skipMemberKey_member]
  rw [skipFrom_part part]
  simpa using value.run depth opened .value [' '] rest (.inl rfl) (by simp [isSpace])

/-- The members behind one are passed over to the end of the object. -/
private theorem skipFrom_nextMember {members : List (Text × Layout)}
    (h : ∀ m ∈ members, Skips m.2) (depth : Nat) (opened : List Char) (rest : Text) :
    skipFrom ('{' :: opened) .nextMember
        (behindMember '}' (members.map fun m => member m.1 m.2) depth ++ rest)
      = skipBehind opened rest := by
  induction members with
  | nil =>
    apply skipFrom_end
    simpa [behindMember_nil] using skipPart_close depth (.inr ⟨rfl, rfl⟩)
  | cons m members ih =>
    have spaced : ∀ c ∈ '\n' :: indent (depth + 1), isSpace c = true := fun _ => isSpace_of_mem_indent
    have one := skipFrom_member m.1 (h m List.mem_cons_self) (depth + 1) ('{' :: opened)
      (behindMember '}' (members.map fun m => member m.1 m.2) depth ++ rest) spaced (.inl rfl)
    have part : skipPart ('{' :: opened) .nextMember
        (behindMember '}' ((m :: members).map fun m => member m.1 m.2) depth ++ rest)
        = .ok ('{' :: opened, some .key, '\n' :: indent (depth + 1) ++ member m.1 m.2 (depth + 1)
          ++ (behindMember '}' (members.map fun m => member m.1 m.2) depth ++ rest)) := by
      rw [List.map_cons, behindMember_cons, List.cons_append]
      simpa using skipPart_comma (.inr ⟨rfl, rfl⟩)
    rw [skipFrom_part part, one]
    exact ih fun m mem => h m (List.mem_cons_of_mem _ mem)

/-- An object is passed over if the value of each member is. -/
theorem Skips.object {members : List (Text × Layout)} (h : ∀ m ∈ members, Skips m.2) :
    Skips (Layout.object members) where
  start depth := by
    cases members <;> exact ⟨'{', _, rfl, by decide, by decide⟩
  run depth opened awaited space rest asked hspace := by
    cases members with
    | nil =>
      have first : skipPart opened awaited (space ++ '{' :: '}' :: rest)
          = .ok ('{' :: opened, some .firstMember, '}' :: rest) :=
        skipPart_open hspace asked (.inr ⟨rfl, rfl⟩)
      have last : skipPart ('{' :: opened) .firstMember ('}' :: rest)
          = .ok (opened, behind opened, rest) := by
        simp [skipPart, skipSpace, isSpace]
      rw [show space ++ Layout.object [] depth ++ rest = space ++ '{' :: '}' :: rest by
        simp [Layout.object, bracketed], skipFrom_part first]
      exact skipFrom_end last
    | cons m members =>
      have spaced : ∀ c ∈ '\n' :: indent (depth + 1), isSpace c = true :=
        fun _ => isSpace_of_mem_indent
      have one := skipFrom_member m.1 (h m List.mem_cons_self) (depth + 1) ('{' :: opened)
        (behindMember '}' (members.map fun m => member m.1 m.2) depth ++ rest) spaced (.inr rfl)
      have first : skipPart opened awaited (space ++ Layout.object (m :: members) depth ++ rest)
          = .ok ('{' :: opened, some .firstMember, '\n' :: indent (depth + 1)
            ++ member m.1 m.2 (depth + 1)
            ++ (behindMember '}' (members.map fun m => member m.1 m.2) depth ++ rest)) := by
        rw [Layout.object, List.map_cons, bracketed_cons]
        simpa using skipPart_open hspace asked (.inr ⟨rfl, rfl⟩)
      rw [skipFrom_part first, one]
      exact skipFrom_nextMember (fun m mem => h m (List.mem_cons_of_mem _ mem)) depth opened rest

/-- What is passed over is read where no value is asked for. -/
theorem Skips.reads (h : Skips write) : Reads anyValue write () where
  start := h.start
  run depth space rest hspace _ := h.run depth [] .value space rest (.inl rfl) hspace

end Json

end Scaffold
