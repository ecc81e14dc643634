import Scaffold.Prompt
import Scaffold.Proofs.Value.Buffer

/-!
# Values that are asked for

Turns are taken as long as a buffer comes back readable, leaves some name empty and the
user goes on. The turn after those ends the asking: with values if its buffer leaves no
name empty, else with an error. Whatever happened in between, a name has in the end what
the last buffer that mentions it says.
-/

namespace Scaffold

variable {c : Contract} {exhausted : Error} {values result : Values} {seen seen' : Transcript}
  {turn : Turn} {turns front rest : List Turn} {edited : EditedValues}
  {replies : List EditedValues} {name : Text} {outcome : Except Error Values}

/-! ## The values after some buffers -/

theorem get?_foldl_erase {names : List Text} :
    (names.foldl (fun vs n => vs.erase n) values).get? name
      = if name ∈ names then none else values.get? name := by
  induction names generalizing values with
  | nil => simp
  | cons n names ih =>
    rw [List.foldl_cons, ih, SortedMap.get?_erase]
    by_cases later : name ∈ names
    · simp [later]
    · simp [later, TextKey.text]

namespace EditedValues

/-- A buffer decides about the names that it mentions and leaves the others as they are. -/
theorem get?_onto : (edited.onto values).get? name = (edited.get? name).getD (values.get? name) := by
  rw [onto, SortedMap.get?_update, get?_toValues, get?_foldl_erase]
  cases said : edited.get? name with
  | none =>
    have kept : name ∉ edited.missing := by simp [mem_missing_iff, said]
    simp [kept]
  | some value =>
    cases value with
    | none => simp [mem_missing_iff, said]
    | some v => simp

/-- Values that a buffer leaves out are not taken away if none of its names is empty. -/
theorem onto_of_complete (complete : edited.missing = []) :
    edited.onto values = values.update edited.toValues := by
  rw [onto, complete, List.foldl_nil]

/-- The values after some buffers, one after the other. -/
def valuesAfter (values : Values) (replies : List EditedValues) : Values :=
  replies.foldl (fun vs edited => edited.onto vs) values

/-- What the last of some buffers that mentions a name says of it. -/
def lastMention? (replies : List EditedValues) (name : Text) : Option (Option Text) :=
  replies.reverse.findSome? fun edited => edited.get? name

theorem valuesAfter_concat :
    valuesAfter values (replies ++ [edited]) = edited.onto (valuesAfter values replies) :=
  List.foldl_concat ..

theorem get?_valuesAfter :
    (valuesAfter values replies).get? name = (lastMention? replies name).getD (values.get? name) := by
  induction replies using List.reverseRecOn with
  | nil => rfl
  | append_singleton replies edited ih =>
    have last : lastMention? (replies ++ [edited]) name
        = (edited.get? name).or (lastMention? replies name) := by
      rw [lastMention?, List.reverse_concat, List.findSome?_cons]
      cases edited.get? name <;> rfl
    rw [valuesAfter_concat, get?_onto, last]
    cases edited.get? name with
    | none => exact ih
    | some value => rfl

end EditedValues

open EditedValues

/-! ## Turns that go on -/

/-- The buffer that is shown comes back as one that can be read. -/
def Turn.Gives (turn : Turn) (shown : Text) (edited : EditedValues) : Prop :=
  ∃ text, turn.reply shown = .ok text ∧ Buffer.parse text = .ok edited

/-- The turns are taken one after the other, each of them leaves a name empty, and each time
the user goes on. -/
inductive GoesOn (c : Contract) : Values → List Turn → List EditedValues → Prop
  | nil (values : Values) : GoesOn c values [] []
  | cons {values : Values} {turn : Turn} {turns : List Turn} {edited : EditedValues}
      {replies : List EditedValues} (gives : turn.Gives (Buffer.render c values) edited)
      (incomplete : edited.missing ≠ []) (again : turn.again = .ok true)
      (more : GoesOn c (edited.onto values) turns replies) :
      GoesOn c values (turn :: turns) (edited :: replies)

/-- The buffers that are shown in turns that go on. -/
def shownBefore (c : Contract) : Values → List EditedValues → List Text
  | _, [] => []
  | values, edited :: replies =>
    Buffer.render c values :: shownBefore c (edited.onto values) replies

/-- One turn that goes on shows its buffer, asks about the names that it left empty, and hands
the values that it leaves over to the next one. -/
theorem askValues_cons_of_again (gives : turn.Gives (Buffer.render c values) edited)
    (incomplete : edited.missing ≠ []) (again : turn.again = .ok true) :
    askValues c exhausted (turn :: rest) values seen
      = askValues c exhausted rest (edited.onto values)
          ⟨seen.shown ++ [Buffer.render c values], seen.asked ++ [edited.missing]⟩ := by
  obtain ⟨text, replied, read⟩ := gives
  have asks : edited.hasMissing = true := by
    rw [← Bool.not_eq_false, ← missing_eq_nil_iff]
    exact incomplete
  simp only [askValues, replied, read, asks, if_true, again]

/-- After the turns that go on, asking continues with the values that they leave. -/
theorem GoesOn.askValues_append (goesOn : GoesOn c values front replies) :
    askValues c exhausted (front ++ rest) values seen
      = askValues c exhausted rest (valuesAfter values replies)
          ⟨seen.shown ++ shownBefore c values replies,
            seen.asked ++ replies.map EditedValues.missing⟩ := by
  induction goesOn generalizing seen with
  | nil values => simp [valuesAfter, shownBefore]
  | cons gives incomplete again more ih =>
    rw [List.cons_append, askValues_cons_of_again gives incomplete again, ih]
    simp [valuesAfter, shownBefore]

/-! ## The turn that ends the asking -/

/-- How asking ends with the turns that are left, and what is asked in that turn. -/
inductive Ends (c : Contract) (exhausted : Error) (values : Values) :
    List Turn → Except Error Values → List (List Text) → Prop
  | complete {turn : Turn} {rest : List Turn} {edited : EditedValues}
      (gives : turn.Gives (Buffer.render c values) edited) (complete : edited.missing = []) :
      Ends c exhausted values (turn :: rest) (.ok (edited.onto values)) []
  | exhausted : Ends c exhausted values [] (.error exhausted) []
  | refused {turn : Turn} {rest : List Turn} {e : Error}
      (refused : turn.reply (Buffer.render c values) = .error e) :
      Ends c exhausted values (turn :: rest) (.error e) []
  | unreadable {turn : Turn} {rest : List Turn} {text line : Text}
      (replied : turn.reply (Buffer.render c values) = .ok text)
      (first : (Text.lines text).find? Buffer.isMalformed = some line) :
      Ends c exhausted values (turn :: rest) (.error (.malformedLine (Text.trim line))) []
  | unasked {turn : Turn} {rest : List Turn} {edited : EditedValues} {e : Error}
      (gives : turn.Gives (Buffer.render c values) edited) (incomplete : edited.missing ≠ [])
      (unasked : turn.again = .error e) :
      Ends c exhausted values (turn :: rest) (.error e) [edited.missing]
  | declined {turn : Turn} {rest : List Turn} {edited : EditedValues}
      (gives : turn.Gives (Buffer.render c values) edited) (incomplete : edited.missing ≠ [])
      (declined : turn.again = .ok false) :
      Ends c exhausted values (turn :: rest) (.error .cancelled) [edited.missing]

theorem Ends.askValues {asked : List (List Text)} (ends : Ends c exhausted values rest outcome asked) :
    askValues c exhausted rest values seen
      = (outcome, ⟨seen.shown ++ [Buffer.render c values], seen.asked ++ asked⟩) := by
  cases ends with
  | complete gives complete =>
    obtain ⟨text, replied, read⟩ := gives
    simp [Scaffold.askValues, replied, read, (missing_eq_nil_iff _).1 complete,
      onto_of_complete complete]
  | exhausted => simp [Scaffold.askValues]
  | refused refused => simp [Scaffold.askValues, refused]
  | unreadable replied first =>
    simp [Scaffold.askValues, replied, Buffer.parse_error_iff.2 ⟨_, first, rfl⟩]
  | unasked gives incomplete unasked =>
    obtain ⟨text, replied, read⟩ := gives
    simp [Scaffold.askValues, replied, read, missing_eq_nil_iff] at incomplete ⊢
    simp [incomplete, unasked]
  | declined gives incomplete declined =>
    obtain ⟨text, replied, read⟩ := gives
    simp [Scaffold.askValues, replied, read, missing_eq_nil_iff] at incomplete ⊢
    simp [incomplete, declined]

/-- A turn goes on or ends the asking. -/
theorem again_or_ends (c : Contract) (exhausted : Error) (turn : Turn) (values : Values) :
    (∃ edited, turn.Gives (Buffer.render c values) edited ∧ edited.missing ≠ []
      ∧ turn.again = .ok true)
    ∨ ∃ outcome asked, ∀ rest, Ends c exhausted values (turn :: rest) outcome asked := by
  cases replied : turn.reply (Buffer.render c values) with
  | error e => exact .inr ⟨_, _, fun _ => .refused replied⟩
  | ok text =>
    cases read : Buffer.parse text with
    | error e =>
      obtain ⟨line, first, rfl⟩ := Buffer.parse_error_iff.1 read
      exact .inr ⟨_, _, fun _ => .unreadable replied first⟩
    | ok edited =>
      have gives : turn.Gives (Buffer.render c values) edited := ⟨text, replied, read⟩
      by_cases complete : edited.missing = []
      · exact .inr ⟨_, _, fun _ => .complete gives complete⟩
      · cases again : turn.again with
        | error e => exact .inr ⟨_, _, fun _ => .unasked gives complete again⟩
        | ok b =>
          cases b with
          | true => exact .inl ⟨edited, gives, complete, rfl⟩
          | false => exact .inr ⟨_, _, fun _ => .declined gives complete again⟩

/-- Every list of turns begins with turns that go on, and then asking ends. -/
theorem exists_ends (c : Contract) (exhausted : Error) (turns : List Turn) (values : Values) :
    ∃ front rest replies outcome asked, turns = front ++ rest ∧ GoesOn c values front replies
      ∧ Ends c exhausted (valuesAfter values replies) rest outcome asked := by
  induction turns generalizing values with
  | nil => exact ⟨[], [], [], _, _, rfl, .nil values, .exhausted⟩
  | cons turn turns ih =>
    rcases again_or_ends c exhausted turn values with
      ⟨edited, gives, incomplete, again⟩ | ⟨outcome, asked, ends⟩
    · obtain ⟨front, rest, replies, outcome, asked, rfl, goesOn, ends⟩ := ih (edited.onto values)
      exact ⟨turn :: front, rest, edited :: replies, outcome, asked, rfl,
        .cons gives incomplete again goesOn, ends⟩
    · exact ⟨[], turn :: turns, [], outcome, asked, rfl, .nil values, ends turns⟩

/-- What asking gives, and what is shown and asked, is decided by the turns that go on and the
one that ends it. -/
theorem askValues_eq_iff : askValues c exhausted turns values seen = (outcome, seen')
    ↔ ∃ front rest replies asked, turns = front ++ rest ∧ GoesOn c values front replies
      ∧ Ends c exhausted (valuesAfter values replies) rest outcome asked
      ∧ seen' = ⟨seen.shown ++ shownBefore c values replies
            ++ [Buffer.render c (valuesAfter values replies)],
          seen.asked ++ replies.map EditedValues.missing ++ asked⟩ := by
  constructor
  · intro run
    obtain ⟨front, rest, replies, outcome', asked, rfl, goesOn, ends⟩ :=
      exists_ends c exhausted turns values
    rw [goesOn.askValues_append, ends.askValues] at run
    obtain ⟨rfl, rfl⟩ := Prod.mk.inj run
    exact ⟨front, rest, replies, asked, rfl, goesOn, ends, rfl⟩
  · rintro ⟨front, rest, replies, asked, rfl, goesOn, ends, rfl⟩
    rw [goesOn.askValues_append, ends.askValues]

/-- Asking gives values exactly if the turns up to some one go on and that one's buffer leaves
no name empty: every name then has what the last buffer that mentions it says, or what it had
at first. Else asking ends with the error of the first turn that does not go on: it cannot be
taken or answered, its buffer has a malformed line, or the user declines. Each time the user
is asked about exactly the names that the buffer leaves empty, in ascending order. -/
theorem askValues_outcome (c : Contract) (exhausted : Error) (turns : List Turn) (values : Values)
    (seen seen' : Transcript) :
    (∀ result, askValues c exhausted turns values seen = (.ok result, seen')
      ↔ ∃ front turn rest replies last, turns = front ++ turn :: rest
        ∧ GoesOn c values front replies
        ∧ turn.Gives (Buffer.render c (valuesAfter values replies)) last ∧ last.missing = []
        ∧ (∀ name, result.get? name
            = (lastMention? (replies ++ [last]) name).getD (values.get? name))
        ∧ seen' = ⟨seen.shown ++ shownBefore c values replies
              ++ [Buffer.render c (valuesAfter values replies)],
            seen.asked ++ replies.map EditedValues.missing⟩)
    ∧ (∀ e, askValues c exhausted turns values seen = (.error e, seen')
      ↔ ∃ front rest replies asked, turns = front ++ rest ∧ GoesOn c values front replies
        ∧ Ends c exhausted (valuesAfter values replies) rest (.error e) asked
        ∧ seen' = ⟨seen.shown ++ shownBefore c values replies
              ++ [Buffer.render c (valuesAfter values replies)],
            seen.asked ++ replies.map EditedValues.missing ++ asked⟩)
    ∧ (∀ replies name, (valuesAfter values replies).get? name
        = (lastMention? replies name).getD (values.get? name))
    ∧ ∀ edited : EditedValues, edited.missing.Pairwise (· < ·)
      ∧ ∀ name, name ∈ edited.missing ↔ edited.get? name = some none := by
  refine ⟨fun result => ⟨fun run => ?_, ?_⟩, fun e => askValues_eq_iff,
    fun replies name => get?_valuesAfter,
    fun edited => ⟨ascending_missing edited, fun name => mem_missing_iff⟩⟩
  · obtain ⟨front, rest, replies, asked, rfl, goesOn, ends, rfl⟩ := askValues_eq_iff.1 run
    cases ends with
    | complete gives complete =>
      refine ⟨front, _, _, replies, _, rfl, goesOn, gives, complete, fun name => ?_, ?_⟩
      · rw [← valuesAfter_concat]
        exact get?_valuesAfter
      · rw [List.append_nil]
  · rintro ⟨front, turn, rest, replies, last, rfl, goesOn, gives, complete, said, rfl⟩
    have given : result = last.onto (valuesAfter values replies) := by
      apply SortedMap.ext_get?
      intro name
      rw [said, ← valuesAfter_concat, get?_valuesAfter]
    rw [askValues_eq_iff, given]
    exact ⟨front, _, replies, [], rfl, goesOn, .complete gives complete, by rw [List.append_nil]⟩

end Scaffold
