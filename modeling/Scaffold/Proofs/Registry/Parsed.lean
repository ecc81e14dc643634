import Scaffold.Proofs.Json.Skipped
import Scaffold.Proofs.Registry.Index

/-!
# What is read as an index

Whatever text an index is read from, the times in it can be stored again, so an index that
is read, changed and written is read back as it was changed. And as no template is read as
an index, no index is read as a template: each record in it is passed over or has the wrong
shape.
-/

namespace Scaffold

namespace Json

variable {α β δ σ : Type} {read : ValueReader α} {t rest : Text}

/-- Whatever the reader reads has the property. -/
def ValueReader.Gives (read : ValueReader α) (P : α → Prop) : Prop :=
  ∀ t x rest, read t = .ok (x, rest) → P x

theorem ValueReader.convert_ok {f : α → Except Fault β} {y : β}
    (h : read.convert f t = .ok (y, rest)) : ∃ x, read t = .ok (x, rest) ∧ f x = .ok y := by
  simp only [ValueReader.convert] at h
  split at h
  · simp at h
  · rename_i x _ found
    split at h
    · simp at h
    · rename_i converted
      simp only [Except.ok.injEq, Prod.mk.injEq] at h
      obtain ⟨rfl, rfl⟩ := h
      exact ⟨x, found, converted⟩

theorem ValueReader.Gives.map {P : α → Prop} {Q : β → Prop} {f : α → β} (h : read.Gives P)
    (imp : ∀ x, P x → Q (f x)) : (read.map f).Gives Q := by
  intro t y rest found
  obtain ⟨x, there, converted⟩ := ValueReader.convert_ok found
  obtain rfl := Except.ok.inj converted
  exact imp x (h t x rest there)

theorem ValueReader.gives_true (read : ValueReader α) : read.Gives fun _ => True :=
  fun _ _ _ _ => trivial

theorem ValueReader.Gives.optional {P : α → Prop} (h : read.Gives P) :
    (readOptional read).Gives fun o => ∀ x ∈ o, P x := by
  intro t o rest found x mem
  obtain rfl := Option.mem_def.1 mem
  simp only [readOptional] at found
  split at found
  · split at found <;> simp at found
  · split at found
    · simp at found
    · rename_i x' _ there
      simp only [Except.ok.injEq, Prod.mk.injEq, Option.some.injEq] at found
      exact found.1 ▸ h _ _ _ there

/-- What is kept by the reader of each key is kept by reading all members. -/
theorem readMembers_keeps {onKey : σ → Text → Except Fault (ValueReader σ)} {P : σ → Prop}
    {found last : σ} {first : Bool}
    (keeps : ∀ found key read, P found → onKey found key = .ok read → read.Gives P)
    (start : P found) (h : readMembers onKey found first t = .ok (last, rest)) : P last := by
  fun_induction readMembers onKey found first t with
  | case1 => simp at h
  | case2 =>
    simp only [Except.ok.injEq, Prod.mk.injEq] at h
    exact h.1 ▸ start
  | case3 => simp at h
  | case4 => simp at h
  | case5 => simp at h
  | case6 found first t key behind turn read known _ _ colon next _ value ih =>
    exact ih (keeps found key read start known _ _ _ value) h

/-- What is kept by the reader of each field is kept by reading a record as a list. -/
theorem readPositional_keeps {fields : List (RecordField δ)} {P : δ → Prop} {draft last : δ}
    {first : Bool} (keeps : ∀ field ∈ fields, ∀ draft, P draft → (field.read draft).Gives P)
    (start : P draft) (h : readPositional draft first fields t = .ok (last, rest)) : P last := by
  induction fields generalizing draft first t with
  | nil =>
    simp only [readPositional] at h
    split at h
    · simp at h
    · simp only [Except.ok.injEq, Prod.mk.injEq] at h
      exact h.1 ▸ start
    · simp at h
  | cons field more ih =>
    simp only [readPositional] at h
    split at h
    · simp at h
    · split at h
      · simp only [Except.ok.injEq, Prod.mk.injEq] at h
        exact h.1 ▸ start
      · simp at h
    · split at h
      · simp at h
      · rename_i value
        refine ih (fun f mem => keeps f (List.mem_cons_of_mem _ mem)) ?_ h
        exact keeps field List.mem_cons_self draft start _ _ _ value

/-- So it is by reading a record. -/
theorem readRecord_keeps {fields : List (RecordField δ)} {P : δ → Prop} {blank : δ}
    {finish : δ → Option α} (keeps : ∀ field ∈ fields, ∀ draft, P draft → (field.read draft).Gives P)
    (start : P blank) : (readRecord fields blank finish).Gives fun x => ∃ last, P last
      ∧ finish last = some x := by
  intro t x rest found
  obtain ⟨last, drafted, finished⟩ := ValueReader.convert_ok found
  have done : finish last = some x := by
    split at finished
    · simp at finished
    · rename_i x' done
      rw [done, Except.ok.inj finished]
  refine ⟨last, ?_, done⟩
  simp only [readDraft] at drafted
  split at drafted
  · exact readPositional_keeps keeps start drafted
  · refine readMembers_keeps (fun draft key read kept known => ?_) start drafted
    unfold onField at known
    split at known
    · obtain rfl := Except.ok.inj known
      exact (ValueReader.gives_true anyValue).map fun _ _ => kept
    · rename_i field found
      split at known
      · simp at known
      · obtain rfl := Except.ok.inj known
        exact keeps field (List.mem_of_find?_eq_some found) draft kept
  · simp at drafted

end Json

open Json

/-! ## Times -/

namespace Record

private theorem gives_readInstant : readInstant.Gives Instant.IsProper := by
  intro t i rest found
  obtain ⟨written, _, converted⟩ := ValueReader.convert_ok found
  split at converted
  · simp at converted
  · rename_i parsed
    obtain rfl := Except.ok.inj converted
    exact Instant.isProper_of_parse? parsed

/-- The time that was read, if there is one, can be stored. -/
def Draft.IsTimed (draft : Draft) : Prop := ∀ time ∈ draft.createdAt, ∀ i ∈ time, i.IsProper

/-- The time of a record that is read can be stored. -/
theorem gives_isTimed : Record.read.Gives IsTimed := by
  have keeps : ∀ field ∈ fields, ∀ draft : Draft, draft.IsTimed →
      (field.read draft).Gives Draft.IsTimed := by
    intro field mem draft kept
    simp only [fields, List.mem_cons, List.not_mem_nil, or_false] at mem
    rcases mem with rfl | rfl | rfl | rfl | rfl
    · exact (ValueReader.gives_true _).map fun _ _ => kept
    · exact (ValueReader.gives_true _).map fun _ _ => kept
    · exact (ValueReader.gives_true _).map fun _ _ => kept
    · exact (ValueReader.gives_true _).map fun _ _ => kept
    · refine gives_readInstant.optional.map fun time proper time' mem => ?_
      obtain rfl := Option.some.inj mem
      exact proper
  have start : Draft.IsTimed ⟨none, none, none, none, none⟩ := by simp [Draft.IsTimed]
  intro t record rest found
  obtain ⟨draft, kept, completed⟩ := readRecord_keeps keeps start t record rest found
  simp only [complete, Option.bind_eq_bind, Option.bind_eq_some_iff, Option.pure_def,
    Option.some.injEq] at completed
  obtain ⟨_, _, _, _, _, _, rfl⟩ := completed
  intro i known
  exact kept (some i) (Option.join_eq_some_iff.1 known) i rfl

end Record

namespace Index

/-- The times of an index that is read can be stored. -/
theorem isTimed_of_parse {t : Text} {index : Index} (h : parse t = .ok index) : index.IsTimed := by
  have start : Index.IsTimed SortedMap.empty := by simp [IsTimed, SortedMap.empty]
  unfold parse at h
  split at h
  · exact Except.ok.inj h ▸ start
  · cases whole : readWhole? (readObject onName SortedMap.empty) t with
    | error fault => simp [whole, Except.mapError] at h
    | ok index' =>
      obtain rfl : index' = index := by simpa [whole, Except.mapError] using h
      unfold readWhole? at whole
      split at whole
      · simp at whole
      · rename_i read
        split at whole
        · obtain rfl := Except.ok.inj whole
          simp only [readObject] at read
          split at read
          · refine readMembers_keeps (fun found key reader timed known => ?_) start read
            unfold onName at known
            split at known
            · simp at known
            · rename_i name _
              obtain rfl := Except.ok.inj known
              exact Record.gives_isTimed.map fun record proper => timed.insert proper name
          · simp at read
        · simp at whole

end Index

/-! ## Templates -/

namespace Record

theorem skips (r : Record) : Skips r.layout := by
  refine .object fun m mem => ?_
  simp only [List.mem_append, List.mem_cons, List.not_mem_nil, or_false] at mem
  rcases mem with ((rfl | rfl | rfl) | mem) | mem
  · exact .text _
  · exact .text _
  · exact .text _
  · split at mem
    · simp at mem
    · obtain rfl := List.mem_singleton.1 mem
      refine .list fun write mem => ?_
      obtain ⟨pattern, _, rfl⟩ := List.mem_map.1 mem
      exact .text pattern
  · split at mem
    · simp at mem
    · obtain rfl := List.mem_singleton.1 mem
      exact .text _

/-- A record is an object. -/
theorem exists_layout_eq (r : Record) (depth : Nat) : ∃ t, r.layout depth = '{' :: t :=
  ⟨_, bracketed_cons '{' '}' _ _ depth⟩

end Record

namespace Template

/-- Whether a name of an index is also the key of a field of a template. -/
private def isField (e : TemplateName × Record) : Bool :=
  e.1.text = "dirs_and_files".toList || e.1.text = "args".toList

/-- Records under other names are passed over. -/
private theorem members_of_not_isField {entries : List (TemplateName × Record)}
    (h : ∀ e ∈ entries, isField e = false) : Members (onField fields) ⟨none, none⟩
      (entries.map fun e => (e.1.text, e.2.layout)) ⟨none, none⟩ := by
  induction entries with
  | nil => exact .nil _
  | cons e more ih =>
    have unknown : onField fields (⟨none, none⟩ : Draft) e.1.text
        = .ok (anyValue.map fun _ => ⟨none, none⟩) := by
      have other := h e List.mem_cons_self
      simp only [isField, Bool.or_eq_false_iff, decide_eq_false_iff_not] at other
      have none : fields.find? (fun f => f.key = e.1.text) = none := by
        refine List.find?_eq_none.2 fun f mem same => ?_
        simp only [fields, List.mem_cons, List.not_mem_nil, or_false] at mem
        rcases mem with rfl | rfl
        · exact other.1 (of_decide_eq_true same).symm
        · exact other.2 (of_decide_eq_true same).symm
      simp only [onField, none]
    have skipped : Reads (anyValue.map fun _ => (⟨none, none⟩ : Draft)) e.2.layout ⟨none, none⟩ :=
      e.2.skips.reads.map fun _ => (⟨none, none⟩ : Draft)
    exact .cons unknown skipped (ih fun e' mem => h e' (List.mem_cons_of_mem _ mem))

/-- Under the keys of its fields a template has lists. -/
private theorem exists_refusing {e : TemplateName × Record} (h : isField e = true) :
    ∃ read, onField fields (⟨none, none⟩ : Draft) e.1.text = .ok read
      ∧ ∀ depth rest, read (' ' :: (e.2.layout depth ++ rest)) = .error .mismatch := by
  have refused {α : Type} (read : ValueReader α) (f : List α → Draft) (depth : Nat) (rest : Text) :
      (readList read).map f (' ' :: (e.2.layout depth ++ rest)) = .error .mismatch := by
    obtain ⟨t, written⟩ := e.2.exists_layout_eq depth
    rw [written]
    rfl
  simp only [isField, Bool.or_eq_true, decide_eq_true_eq] at h
  rcases h with name | name
  · rw [name]
    exact ⟨_, rfl, refused _ _⟩
  · rw [name]
    exact ⟨_, rfl, refused _ _⟩

/-- The stored text of an index is no template. -/
theorem parse_index (index : Index) : parse index.render = .error (.json .mismatch) := by
  have refused : readParts index.render = .error .mismatch := by
    by_cases plain : ∀ e ∈ index.entries, isField e = false
    · have drafted := (Reads.draft (members_of_not_isField plain)).run 0 [] [] (by simp) rfl
      rw [List.nil_append, List.append_nil] at drafted
      have rendered : index.render = Layout.object
          (index.entries.map fun e => (e.1.text, e.2.layout)) 0 := rfl
      simp only [readParts, readRecord, ValueReader.convert, rendered, drafted, Option.map_none]
    · have cut := (List.takeWhile_append_dropWhile (p := fun e => !isField e)
        (l := index.entries)).symm
      cases behind : index.entries.dropWhile fun e => !isField e with
      | nil =>
        refine absurd (fun e mem => ?_) plain
        have all := List.dropWhile_eq_nil_iff.1 behind e mem
        simpa using all
      | cons e more =>
        rw [behind] at cut
        have special : isField e = true := by
          have head := List.head?_dropWhile_not (fun e => !isField e) index.entries
          simpa [behind] using head
        have front : ∀ e ∈ index.entries.takeWhile fun e => !isField e, isField e = false :=
          fun e mem => by simpa using List.mem_takeWhile_imp mem
        obtain ⟨read, known, refused⟩ := exists_refusing special
        have rendered : index.render = Layout.object
            ((index.entries.takeWhile fun e => !isField e).map (fun e => (e.1.text, e.2.layout))
              ++ (e.1.text, e.2.layout) :: more.map fun e => (e.1.text, e.2.layout)) 0 := by
          rw [← List.map_cons (f := fun e : TemplateName × Record => (e.1.text, e.2.layout)),
            ← List.map_append, ← cut]
          rfl
        rw [rendered]
        exact readRecord_member_error (members_of_not_isField front) known refused 0
  simp only [parse, readWhole?, refused]

end Template

end Scaffold
