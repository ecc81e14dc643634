import Scaffold.Registry.Basic
import Scaffold.Value.Buffer

/-!
# Asking for values

A prompt takes turns with a user. In each turn a buffer is shown and comes back
edited; if some name was left without a value, the user says whether to go on.
Going on starts the next turn with the values that the last one gave and without
those that it left empty. The loop is over when a buffer leaves nothing empty.
-/

namespace Scaffold

/-- One turn of a user. -/
structure Turn where
  /-- What becomes of the buffer that is shown. -/
  reply : Text → Except Error Text
  /-- Whether to go on when some name has no value, if that can be asked. -/
  again : Except Error Bool

/-- The turns that a user will take. -/
structure Prompt where
  turns : List Turn
  /-- What a turn beyond the last one fails with. -/
  exhausted : Error

namespace Prompt

/-- A user who answers with prepared edits, of which `none` leaves the buffer as
it is, and with prepared decisions to go on, of which the missing ones are no. -/
def scripted (edits : List (Option Text)) (decisions : List Bool) : Prompt where
  turns := edits.mapIdx fun n edit =>
    ⟨fun buffer => .ok (edit.getD buffer), .ok (decisions.getD n false)⟩
  exhausted := .editorFailed "scripted".toList "no edit scripted".toList

end Prompt

/-- The values after a turn that left names empty: those names lose their
values, and the others get what was entered. -/
def EditedValues.onto (edited : EditedValues) (values : Values) : Values :=
  (edited.missing.foldl (fun vs name => vs.erase name) values).update edited.toValues

/-- Take turns until no name is left empty. -/
def askValues (c : Contract) (exhausted : Error) :
    List Turn → Values → Transcript → Except Error Values × Transcript
  | [], values, seen =>
    (.error exhausted, { seen with shown := seen.shown ++ [Buffer.render c values] })
  | turn :: more, values, seen =>
    let buffer := Buffer.render c values
    let seen := { seen with shown := seen.shown ++ [buffer] }
    match turn.reply buffer with
    | .error e => (.error e, seen)
    | .ok text =>
      match Buffer.parse text with
      | .error e => (.error e, seen)
      | .ok edited =>
        if edited.hasMissing then
          let seen := { seen with asked := seen.asked ++ [edited.missing] }
          match turn.again with
          | .error e => (.error e, seen)
          | .ok true => askValues c exhausted more (edited.onto values) seen
          | .ok false => (.error .cancelled, seen)
        else (.ok (values.update edited.toValues), seen)

namespace Prompt

/-- Ask for the values of a contract, starting from the given ones. -/
def ask {ρ : Type} (p : Prompt) (c : Contract) (values : Values) : Job ρ Values := fun w =>
  match askValues c p.exhausted p.turns values w.transcript with
  | (.ok values, seen) => .ok values { w with transcript := seen }
  | (.error e, seen) => .error e { w with transcript := seen }

end Prompt

end Scaffold
