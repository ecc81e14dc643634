import Scaffold.Proofs.Json.Lexeme

/-!
# Written values are read back

`Reads read write x` says that the reader `read`, put in front of what `write` writes at
any depth, gives `x` and leaves what stands behind. One rule for each layout builds such
a fact from those of its parts. The members of an object change what was found one after
the other; `Members` follows this for a list of keys and written values, and the rules
for records and objects take it as their premise.
-/

namespace Scaffold

namespace Json

open Layout

/-- What is written is read back as `x`, at any depth, behind any space, and in front of
any text in which a number would end. -/
structure Reads {α : Type} (read : ValueReader α) (write : Layout) (x : α) : Prop where
  /-- A written value begins with neither a space nor a closing bracket. -/
  start : ∀ depth, ∃ c t, write depth = c :: t ∧ isSpace c = false ∧ c ≠ ']'
  run : ∀ depth (space rest : Text), (∀ c ∈ space, isSpace c = true) → EndsNumber rest →
    read (space ++ write depth ++ rest) = .ok (x, rest)

theorem isSpace_of_mem_indent {depth : Nat} {c : Char} (h : c ∈ '\n' :: indent depth) :
    isSpace c = true := by
  rcases List.mem_cons.1 h with rfl | h
  · decide
  · rw [List.eq_of_mem_replicate h]
    decide

/-- A line break and the space in front of a value are passed over together. -/
theorem skipSpace_indent_append {depth : Nat} {t : Text} {c : Char} {more : Text}
    (h : t = c :: more) (hc : isSpace c = false) :
    skipSpace ('\n' :: indent depth ++ t) = t := by
  rw [skipSpace_append (fun _ => isSpace_of_mem_indent), h, skipSpace_cons_of_not hc]

private theorem exists_digit_of_ofNat (n : Nat) :
    ∃ d more, Text.ofNat n = d :: more ∧ d.isDigit = true := by
  obtain ⟨d, more, digits⟩ := List.exists_cons_of_ne_nil (Text.ofNat_ne_nil n)
  exact ⟨d, more, digits, Text.isDigit_of_mem_ofNat (digits ▸ List.mem_cons_self)⟩

private theorem isSpace_of_isDigit {c : Char} (h : c.isDigit = true) : isSpace c = false := by
  apply Bool.eq_false_iff.2
  intro space
  have cases : (c = ' ' ∨ c = '\n') ∨ c = '\t' ∨ c = '\r' := by
    simpa [isSpace, or_assoc] using space
  rcases cases with (rfl | rfl) | rfl | rfl <;> exact absurd h (by decide)

namespace Reads

variable {α β : Type} {read : ValueReader α} {write : Layout} {x : α}

/-! ## Values without parts -/

theorem text (t : Text) : Reads readText (Layout.text t) t where
  start _ := ⟨'"', _, rfl, by decide, by decide⟩
  run depth space rest hspace _ := by
    have start : skipSpace (space ++ Layout.text t depth ++ rest)
        = '"' :: (t.flatMap escape ++ '"' :: rest) := by
      rw [List.append_assoc, skipSpace_append hspace]
      simp [Layout.text, quoted, skipSpace, isSpace]
    simp only [readText, start, readQuoted_flatMap_escape]

theorem uint32 (n : UInt32) : Reads readUInt32 (Layout.nat n.toNat) n where
  start _ := by
    obtain ⟨d, more, digits, digit⟩ := exists_digit_of_ofNat n.toNat
    refine ⟨d, more, digits, isSpace_of_isDigit digit, ?_⟩
    rintro rfl
    exact absurd digit (by decide)
  run depth space rest hspace stop := by
    obtain ⟨d, more, digits, digit⟩ := exists_digit_of_ofNat n.toNat
    have start : skipSpace (space ++ Layout.nat n.toNat depth ++ rest)
        = Text.ofNat n.toNat ++ rest := by
      rw [List.append_assoc, skipSpace_append hspace, Layout.nat, digits, List.cons_append,
        skipSpace_cons_of_not (isSpace_of_isDigit digit)]
    have head : (Text.ofNat n.toNat ++ rest).head?.any (fun c => c = '-' || c.isDigit)
        = true := by
      simp [digits, digit]
    have small : n.toNat < wordBound := n.toNat_lt
    have number : readNumberValue (space ++ Layout.nat n.toNat depth ++ rest)
        = .ok (⟨false, Text.ofNat n.toNat, none, none⟩, rest) := by
      simp only [readNumberValue, start, head, if_true, readBoundedNumber,
        readNumber_ofNat stop, NumberParts.overflows_ofNat small, Bool.false_eq_true, if_false]
    simp only [readUInt32, ValueReader.convert, number]
    simp [NumberParts.nat?, small]

/-! ## Readers made of readers -/

/-- What is made of a value that is read back is made of it. -/
theorem convert {f : α → Except Fault β} {y : β} (h : Reads read write x) (hf : f x = .ok y) :
    Reads (read.convert f) write y where
  start := h.start
  run depth _ _ hspace stop := by
    simp only [ValueReader.convert, h.run depth _ _ hspace stop, hf]

theorem map (f : α → β) (h : Reads read write x) : Reads (read.map f) write (f x) :=
  h.convert rfl

/-- A text that may be absent: the absent value does not begin like a text. -/
theorem optional_text {t : Text} (h : Reads read (Layout.text t) x) :
    Reads (readOptional read) (Layout.text t) (some x) where
  start := h.start
  run depth space rest hspace stop := by
    have start : skipSpace (space ++ Layout.text t depth ++ rest)
        = '"' :: (t.flatMap escape ++ '"' :: rest) := by
      rw [List.append_assoc, skipSpace_append hspace]
      simp [Layout.text, quoted, skipSpace, isSpace]
    have value := h.run depth [] _ (by simp) stop
    have written : [] ++ Layout.text t depth ++ rest
        = '"' :: (t.flatMap escape ++ '"' :: rest) := by
      simp [Layout.text, quoted]
    rw [written] at value
    simp only [readOptional, start]
    split
    · rename_i behind front
      exact absurd (List.cons.inj front).1 (by decide)
    · simp only [value]

theorem optional_null (read : ValueReader α) : Reads (readOptional read) Layout.null none where
  start _ := ⟨'n', _, rfl, by decide, by decide⟩
  run depth space rest hspace _ := by
    have start : skipSpace (space ++ Layout.null depth ++ rest) = 'n' :: "ull".toList ++ rest := by
      rw [List.append_assoc, skipSpace_append hspace]
      rfl
    simp only [readOptional, start, List.cons_append]
    rfl

/-- A text or nothing is read back as what it is. -/
theorem optional : ∀ o : Option Text, Reads (readOptional readText) (Layout.optional Layout.text o) o
  | none => optional_null readText
  | some t => (text t).optional_text

end Reads

/-! ## Lists -/

variable {α γ : Type} {read : ValueReader α}

private theorem readItems_closed {first : Bool} {t rest : Text}
    (turn : nextItem first t = .ok (.closed rest)) : readItems read first t = .ok ([], rest) := by
  rw [readItems]
  split
  · rename_i found
    simp [turn] at found
  · rename_i found
    rw [turn] at found
    simpa using found.symm
  · rename_i found
    simp [turn] at found

private theorem readItems_item {first : Bool} {t start rest behind : Text} {x : α} {more : List α}
    (turn : nextItem first t = .ok (.item start)) (value : read start = .ok (x, rest))
    (others : readItems read false rest = .ok (more, behind)) :
    readItems read first t = .ok (x :: more, behind) := by
  rw [readItems]
  split
  · rename_i found
    simp [turn] at found
  · rename_i found
    simp [turn] at found
  · rename_i found
    rw [turn] at found
    simp only [Except.ok.injEq, Turn.item.injEq] at found
    subst found
    split
    · rename_i found
      simp [value] at found
    · rename_i found
      rw [value] at found
      simp only [Except.ok.injEq, Prod.mk.injEq] at found
      obtain ⟨rfl, rfl⟩ := found
      simp [others]

theorem nextItem_first {t : Text} {c : Char} {more : Text} (depth : Nat)
    (h : t = c :: more) (notSpace : isSpace c = false) (notClosing : c ≠ ']') :
    nextItem true ('\n' :: indent depth ++ t) = .ok (.item t) := by
  subst h
  simp only [nextItem, skipSpace_indent_append rfl notSpace, if_true]

private theorem nextItem_comma {t : Text} {c : Char} {more : Text} (depth : Nat)
    (h : t = c :: more) (notSpace : isSpace c = false) (notClosing : c ≠ ']') :
    nextItem false (',' :: ('\n' :: indent depth ++ t)) = .ok (.item t) := by
  subst h
  have comma : skipSpace (',' :: ('\n' :: indent depth ++ c :: more))
      = ',' :: ('\n' :: indent depth ++ c :: more) := skipSpace_cons_of_not (by decide) _
  simp only [nextItem, comma, Bool.false_eq_true, if_false]
  split
  · contradiction
  · rename_i front
    exact absurd (List.cons.inj front).1 (by decide)
  · rename_i front
    obtain ⟨rfl, rfl⟩ := List.cons.inj front
    simp only [if_true, skipSpace_indent_append rfl notSpace]
    split
    · contradiction
    · rename_i front
      exact absurd (List.cons.inj front).1 notClosing
    · rfl

private theorem nextItem_closing (first : Bool) (depth : Nat) (rest : Text) :
    nextItem first ('\n' :: indent depth ++ ']' :: rest) = .ok (.closed rest) := by
  simp only [nextItem, skipSpace_indent_append (t := ']' :: rest) rfl (by decide)]

/-- What stands behind a member of brackets: the other members and the closing one. -/
def behindMember (closing : Char) (more : List Layout) (depth : Nat) : Text :=
  more.flatMap (fun member => ',' :: '\n' :: indent (depth + 1) ++ member (depth + 1))
    ++ '\n' :: indent depth ++ [closing]

theorem bracketed_cons (opening closing : Char) (first : Layout) (more : List Layout)
    (depth : Nat) : bracketed opening closing (first :: more) depth
      = opening :: ('\n' :: indent (depth + 1) ++ (first (depth + 1)
        ++ behindMember closing more depth)) := by
  simp [bracketed, behindMember]

theorem behindMember_cons (closing : Char) (first : Layout) (more : List Layout) (depth : Nat) :
    behindMember closing (first :: more) depth
      = ',' :: ('\n' :: indent (depth + 1) ++ (first (depth + 1)
        ++ behindMember closing more depth)) := by
  simp [behindMember]

theorem behindMember_nil (closing : Char) (depth : Nat) :
    behindMember closing [] depth = '\n' :: indent depth ++ [closing] := rfl

/-- A number in brackets ends where its member does. -/
theorem endsNumber_behindMember (closing : Char) (more : List Layout) (depth : Nat)
    (rest : Text) : EndsNumber (behindMember closing more depth ++ rest) := by
  cases more with
  | nil => rfl
  | cons first more => rfl

namespace Reads

variable {layout : γ → Layout} {meant : γ → α}

/-- The items behind one are read to the end of the list. -/
private theorem readItems_behind {xs : List γ} (h : ∀ y ∈ xs, Reads read (layout y) (meant y))
    (depth : Nat) (rest : Text) :
    readItems read false (behindMember ']' (xs.map layout) depth ++ rest)
      = .ok (xs.map meant, rest) := by
  induction xs with
  | nil =>
    apply readItems_closed
    simpa [behindMember_nil] using nextItem_closing false depth rest
  | cons y xs ih =>
    have item := h y List.mem_cons_self
    obtain ⟨c, t, begins, notSpace, notClosing⟩ := item.start (depth + 1)
    have value := item.run (depth + 1) [] _ (by simp)
      (endsNumber_behindMember ']' (xs.map layout) depth rest)
    apply readItems_item ?_ value (ih fun z hz => h z (List.mem_cons_of_mem _ hz))
    rw [List.map_cons, behindMember_cons, List.cons_append, List.append_assoc,
      List.append_assoc, List.nil_append]
    exact nextItem_comma (depth + 1) (by rw [begins]; rfl) notSpace notClosing

/-- A list is read back if each item is. -/
theorem list {xs : List γ} (h : ∀ y ∈ xs, Reads read (layout y) (meant y)) :
    Reads (readList read) (Layout.list (xs.map layout)) (xs.map meant) where
  start depth := by
    cases xs <;> exact ⟨'[', _, rfl, by decide, by decide⟩
  run depth space rest hspace _ := by
    have start {more : Text} (h : Layout.list (xs.map layout) depth = '[' :: more) :
        readList read (space ++ Layout.list (xs.map layout) depth ++ rest)
          = readItems read true (more ++ rest) := by
      have front : skipSpace (space ++ Layout.list (xs.map layout) depth ++ rest)
          = '[' :: (more ++ rest) := by
        rw [List.append_assoc, skipSpace_append hspace, h, List.cons_append,
          skipSpace_cons_of_not (by decide)]
      simp only [readList, front]
    cases xs with
    | nil =>
      rw [start rfl]
      exact readItems_closed rfl
    | cons y xs =>
      rw [start (bracketed_cons '[' ']' (layout y) (xs.map layout) depth)]
      have item := h y List.mem_cons_self
      obtain ⟨c, t, begins, notSpace, notClosing⟩ := item.start (depth + 1)
      have value := item.run (depth + 1) [] _ (by simp)
        (endsNumber_behindMember ']' (xs.map layout) depth rest)
      apply readItems_item ?_ value
        (readItems_behind (fun z hz => h z (List.mem_cons_of_mem _ hz)) depth rest)
      rw [List.append_assoc, List.append_assoc, List.nil_append]
      exact nextItem_first (depth + 1) (by rw [begins]; rfl) notSpace notClosing

theorem texts (ts : List Text) : Reads (readList readText) (Layout.list (ts.map .text)) ts := by
  have items : Reads (readList readText) (Layout.list (ts.map .text)) (ts.map id) :=
    .list fun t _ => .text t
  simpa using items

end Reads

/-! ## Objects -/

variable {σ : Type} {onKey : σ → Text → Except Fault (ValueReader σ)}

/-- What the members of an object make of `found`, each key asking for a reader that
reads the value written under it. -/
inductive Members (onKey : σ → Text → Except Fault (ValueReader σ)) :
    σ → List (Text × Layout) → σ → Prop
  | nil (found : σ) : Members onKey found [] found
  | cons {found next last : σ} {key : Text} {write : Layout} {more : List (Text × Layout)}
      {read : ValueReader σ} (known : onKey found key = .ok read)
      (value : Reads read write next) (others : Members onKey next more last) :
      Members onKey found ((key, write) :: more) last

private theorem readMembers_closed {found : σ} {first : Bool} {t rest : Text}
    (turn : nextKey first t = .ok (none, rest)) :
    readMembers onKey found first t = .ok (found, rest) := by
  rw [readMembers]
  split
  · rename_i seen
    simp [turn] at seen
  · rename_i seen
    rw [turn] at seen
    simpa using seen.symm
  · rename_i seen
    simp [turn] at seen

/-- Behind a key that is known and its colon comes the value. -/
private theorem readMembers_key {found : σ} {first : Bool} {key : Text} {t behind start : Text}
    {read : ValueReader σ} (turn : nextKey first t = .ok (some key, behind))
    (known : onKey found key = .ok read) (colon : readColon behind = .ok ((), start)) :
    readMembers onKey found first t = match read start with
      | .error fault => .error fault
      | .ok (next, rest) => readMembers onKey next false rest := by
  rw [readMembers]
  split
  · rename_i seen
    simp [turn] at seen
  · rename_i seen
    simp [turn] at seen
  · rename_i seen
    rw [turn] at seen
    simp only [Except.ok.injEq, Prod.mk.injEq, Option.some.injEq] at seen
    obtain ⟨rfl, rfl⟩ := seen
    simp only [known]
    split
    · rename_i seen
      simp [colon] at seen
    · rename_i seen
      rw [colon] at seen
      simp only [Except.ok.injEq, Prod.mk.injEq, true_and] at seen
      subst seen
      split
      · rename_i seen
        rw [seen]
      · rename_i seen
        rw [seen]

private theorem readMembers_next {found next : σ} {first : Bool} {key : Text}
    {t behind start rest : Text} {read : ValueReader σ} {outcome : Except Fault (σ × Text)}
    (turn : nextKey first t = .ok (some key, behind)) (known : onKey found key = .ok read)
    (colon : readColon behind = .ok ((), start)) (value : read start = .ok (next, rest))
    (others : readMembers onKey next false rest = outcome) :
    readMembers onKey found first t = outcome := by
  rw [readMembers_key turn known colon, value]
  exact others

private theorem readMembers_member_error {found : σ} {first : Bool} {key : Text}
    {t behind start : Text} {read : ValueReader σ} {fault : Fault}
    (turn : nextKey first t = .ok (some key, behind)) (known : onKey found key = .ok read)
    (colon : readColon behind = .ok ((), start)) (value : read start = .error fault) :
    readMembers onKey found first t = .error fault := by
  rw [readMembers_key turn known colon, value]

/-- The written key and value of a member in front of a text. -/
private def memberText (key : Text) (write : Layout) (depth : Nat) (rest : Text) : Text :=
  key.flatMap escape ++ '"' :: ':' :: ' ' :: (write depth ++ rest)

private theorem member_append (key : Text) (write : Layout) (depth : Nat) (rest : Text) :
    member key write depth ++ rest = '"' :: memberText key write depth rest := by
  simp [member, quoted, memberText]

private theorem nextKey_first (key : Text) (write : Layout) (depth : Nat) (rest : Text) :
    nextKey true ('\n' :: indent depth ++ (member key write depth ++ rest))
      = .ok (some key, ':' :: ' ' :: (write depth ++ rest)) := by
  rw [member_append]
  have quoted := readQuoted_flatMap_escape key (':' :: ' ' :: (write depth ++ rest))
  have space : skipSpace ('\n' :: indent depth ++ '"' :: memberText key write depth rest)
      = '"' :: memberText key write depth rest := skipSpace_indent_append rfl (by decide)
  simp only [nextKey, space]
  simp [memberText, quoted]

private theorem nextKey_comma (key : Text) (write : Layout) (depth : Nat) (rest : Text) :
    nextKey false (',' :: ('\n' :: indent depth ++ (member key write depth ++ rest)))
      = .ok (some key, ':' :: ' ' :: (write depth ++ rest)) := by
  rw [member_append]
  have quoted := readQuoted_flatMap_escape key (':' :: ' ' :: (write depth ++ rest))
  have comma : ∀ t, skipSpace (',' :: t) = ',' :: t := skipSpace_cons_of_not (by decide)
  have space : skipSpace ('\n' :: indent depth ++ '"' :: memberText key write depth rest)
      = '"' :: memberText key write depth rest := skipSpace_indent_append rfl (by decide)
  simp only [nextKey, comma, Bool.false_eq_true, if_false]
  split
  · contradiction
  · rename_i front
    exact absurd (List.cons.inj front).1 (by decide)
  · rename_i front
    obtain ⟨rfl, rfl⟩ := List.cons.inj front
    simp only [if_true, space]
    simp [memberText, quoted]

private theorem nextKey_closing (first : Bool) (depth : Nat) (rest : Text) :
    nextKey first ('\n' :: indent depth ++ '}' :: rest) = .ok (none, rest) := by
  simp only [nextKey, skipSpace_indent_append (t := '}' :: rest) rfl (by decide)]

private theorem readColon_cons (t : Text) : readColon (':' :: t) = .ok ((), t) := by
  simp [readColon, skipSpace, isSpace]

/-- The members of an object as they are laid out between its brackets. -/
private def memberLayouts (members : List (Text × Layout)) : List Layout :=
  members.map fun m => member m.1 m.2

private theorem memberLayouts_cons (key : Text) (write : Layout) (more : List (Text × Layout)) :
    memberLayouts ((key, write) :: more) = member key write :: memberLayouts more := rfl

/-- The members behind one are read to the end of the object. -/
private theorem readMembers_behind {found last : σ} {members : List (Text × Layout)}
    (h : Members onKey found members last) (depth : Nat) (rest : Text) :
    readMembers onKey found false (behindMember '}' (memberLayouts members) depth ++ rest)
      = .ok (last, rest) := by
  induction h with
  | nil found =>
    apply readMembers_closed
    simpa [memberLayouts, behindMember_nil] using nextKey_closing false depth rest
  | @cons found next last key write more read known value others ih =>
    have stop := endsNumber_behindMember '}' (memberLayouts more) depth rest
    have turn := nextKey_comma key write (depth + 1)
      (behindMember '}' (memberLayouts more) depth ++ rest)
    have run := value.run (depth + 1) [' '] _ (by simp [isSpace]) stop
    refine readMembers_next (by simpa [memberLayouts_cons, behindMember_cons] using turn) known
      (readColon_cons _) (by simpa using run) ih

/-- An object is read from behind its opening bracket. -/
private theorem readMembers_object {found last : σ} {members : List (Text × Layout)}
    (h : Members onKey found members last) (depth : Nat) (rest : Text) :
    ∃ t, Layout.object members depth = '{' :: t
      ∧ readMembers onKey found true (t ++ rest) = .ok (last, rest) := by
  cases h with
  | nil => exact ⟨['}'], rfl, readMembers_closed rfl⟩
  | @cons _ next _ key write more read known value others =>
    refine ⟨_, bracketed_cons '{' '}' (member key write) (memberLayouts more) depth, ?_⟩
    have stop := endsNumber_behindMember '}' (memberLayouts more) depth rest
    have turn := nextKey_first key write (depth + 1)
      (behindMember '}' (memberLayouts more) depth ++ rest)
    have run := value.run (depth + 1) [' '] _ (by simp [isSpace]) stop
    refine readMembers_next (by simpa using turn) known (readColon_cons _) (by simpa using run)
      (readMembers_behind others depth rest)

private theorem skipSpace_object {members : List (Text × Layout)} {depth : Nat} {t : Text}
    (written : Layout.object members depth = '{' :: t) (space rest : Text)
    (spaces : ∀ c ∈ space, isSpace c = true) :
    skipSpace (space ++ Layout.object members depth ++ rest) = '{' :: (t ++ rest) := by
  rw [List.append_assoc, skipSpace_append spaces, written, List.cons_append,
    skipSpace_cons_of_not (by decide)]

/-- From an opening bracket of an object on, a draft is read as one. -/
private theorem readDraft_eq_readObject {δ : Type} {fields : List (RecordField δ)} {blank : δ}
    {t rest : Text} (start : skipSpace t = '{' :: rest) :
    readDraft fields blank t = readObject (onField fields) blank t := by
  simp only [readDraft, readObject, start]

/-! ## Objects that are refused -/

section

variable {found last : σ} {front more : List (Text × Layout)} {key : Text} {write : Layout}
  {read : ValueReader σ} {fault : Fault}

/-- The members behind one are refused at the first one whose value is refused. -/
private theorem readMembers_behind_error (h : Members onKey found front last)
    (known : onKey last key = .ok read)
    (refused : ∀ depth rest, read (' ' :: (write depth ++ rest)) = .error fault) (depth : Nat)
    (rest : Text) : readMembers onKey found false
      (behindMember '}' (memberLayouts (front ++ (key, write) :: more)) depth ++ rest)
        = .error fault := by
  induction h with
  | nil found =>
    have turn := nextKey_comma key write (depth + 1)
      (behindMember '}' (memberLayouts more) depth ++ rest)
    exact readMembers_member_error (by simpa [memberLayouts_cons, behindMember_cons] using turn)
      known (readColon_cons _) (refused ..)
  | @cons found next last key' write' others read' known' value members ih =>
    let behind := memberLayouts (others ++ (key, write) :: more)
    have stop := endsNumber_behindMember '}' behind depth rest
    have turn := nextKey_comma key' write' (depth + 1) (behindMember '}' behind depth ++ rest)
    have run := value.run (depth + 1) [' '] _ (by simp [isSpace]) stop
    refine readMembers_next
      (by simpa [behind, memberLayouts_cons, behindMember_cons] using turn) known' (readColon_cons _)
      (by simpa using run) (ih known)

/-- An object is refused from behind its opening bracket. -/
private theorem readMembers_object_error (more : List (Text × Layout))
    (h : Members onKey found front last) (known : onKey last key = .ok read)
    (refused : ∀ depth rest, read (' ' :: (write depth ++ rest)) = .error fault) (depth : Nat)
    (rest : Text) : ∃ t, Layout.object (front ++ (key, write) :: more) depth = '{' :: t
      ∧ readMembers onKey found true (t ++ rest) = .error fault := by
  cases h with
  | nil =>
    refine ⟨_, bracketed_cons '{' '}' (member key write) (memberLayouts more) depth, ?_⟩
    have turn := nextKey_first key write (depth + 1)
      (behindMember '}' (memberLayouts more) depth ++ rest)
    exact readMembers_member_error (by simpa using turn) known (readColon_cons _) (refused ..)
  | @cons _ next _ key' write' others read' known' value members =>
    let behind := memberLayouts (others ++ (key, write) :: more)
    refine ⟨_, bracketed_cons '{' '}' (member key' write') behind depth, ?_⟩
    have stop := endsNumber_behindMember '}' behind depth rest
    have turn := nextKey_first key' write' (depth + 1) (behindMember '}' behind depth ++ rest)
    have run := value.run (depth + 1) [' '] _ (by simp [isSpace]) stop
    exact readMembers_next (by simpa using turn) known' (readColon_cons _) (by simpa using run)
      (readMembers_behind_error members known refused depth rest)

/-- An object is refused at the first member whose value is refused. -/
theorem readObject_member_error (h : Members onKey found front last)
    (known : onKey last key = .ok read)
    (refused : ∀ depth rest, read (' ' :: (write depth ++ rest)) = .error fault) (depth : Nat) :
    readObject onKey found (Layout.object (front ++ (key, write) :: more) depth)
      = .error fault := by
  obtain ⟨t, written, inside⟩ :=
    readMembers_object_error more h known refused depth []
  have start := skipSpace_object written [] [] (by simp)
  simp only [List.nil_append, List.append_nil] at inside start
  simp only [readObject, start, inside]

/-- So is a record. -/
theorem readRecord_member_error {δ α : Type} {fields : List (RecordField δ)} {found last : δ}
    {read : ValueReader δ} {finish : δ → Option α} (h : Members (onField fields) found front last)
    (known : onField fields last key = .ok read)
    (refused : ∀ depth rest, read (' ' :: (write depth ++ rest)) = .error fault) (depth : Nat) :
    readRecord fields found finish (Layout.object (front ++ (key, write) :: more) depth)
      = .error fault := by
  obtain ⟨_, written, _⟩ := readMembers_object_error more h known refused depth []
  have start := skipSpace_object written [] [] (by simp)
  simp only [List.nil_append, List.append_nil] at start
  have refusal : readDraft fields found (Layout.object (front ++ (key, write) :: more) depth)
      = .error fault := by
    rw [readDraft_eq_readObject start]
    exact readObject_member_error h known refused depth
  simp only [readRecord, ValueReader.convert, refusal]

end

namespace Reads

/-- An object is read back if its members lead from what was found before to `last`. -/
theorem object {blank last : σ} {members : List (Text × Layout)}
    (h : Members onKey blank members last) :
    Reads (readObject onKey blank) (Layout.object members) last where
  start depth := by
    obtain ⟨t, written, _⟩ := readMembers_object h depth []
    exact ⟨'{', t, written, by decide, by decide⟩
  run depth space rest hspace _ := by
    obtain ⟨t, written, inside⟩ := readMembers_object h depth rest
    simp only [readObject, skipSpace_object written space rest hspace, inside]

/-- The draft of a record is read back if its members fill it. -/
theorem draft {δ : Type} {fields : List (RecordField δ)} {blank last : δ}
    {members : List (Text × Layout)} (h : Members (onField fields) blank members last) :
    Reads (readDraft fields blank) (Layout.object members) last where
  start := (object h).start
  run depth space rest hspace stop := by
    obtain ⟨_, written, _⟩ := readMembers_object h depth rest
    rw [readDraft_eq_readObject (skipSpace_object written space rest hspace)]
    exact (object h).run depth space rest hspace stop

/-- A record is read back if its draft is finished to `x`. -/
theorem record {δ α : Type} {fields : List (RecordField δ)} {blank last : δ}
    {finish : δ → Option α} {members : List (Text × Layout)} {x : α}
    (h : Members (onField fields) blank members last) (done : finish last = some x) :
    Reads (readRecord fields blank finish) (Layout.object members) x :=
  (draft h).convert (by simp [done])

/-- What is written as a whole text is read back. -/
theorem whole {α : Type} {read : ValueReader α} {write : Layout} {x : α}
    (h : Reads read write x) : readWhole? read write.render = .ok x := by
  have run := h.run 0 [] [] (by simp) rfl
  have text : read write.render = .ok (x, []) := by
    simpa [Layout.render] using run
  simp [readWhole?, text, skipSpace]

end Reads

end Json

end Scaffold
