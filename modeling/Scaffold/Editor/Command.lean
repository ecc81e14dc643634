import Scaffold.Editor.Script
import Scaffold.FileSystem.Action
import Scaffold.Prompt

/-!
# Editor commands

An editor is a command line; the path of the file to be edited is put behind its
words. The commands that are known work without a user: `true` keeps the file,
`false` fails, `sed -i` runs a line script on it, `cp` copies another file over it,
`truncate -s` cuts it or fills it up, and `rm` takes it away. Any other program is
missing.

No terminal is ever attached, so nobody can be asked to go on, and a prompt that
runs an editor takes a single turn.
-/

namespace Scaffold

namespace Editor

/-- How a command ends. -/
inductive Outcome where
  /-- The program does not exist. -/
  | missing
  /-- It fails. -/
  | failed
  /-- It leaves this content in the file. -/
  | wrote (content : Octets)
  /-- It leaves no file. -/
  | removed

/-- The words that are no options. -/
def operands (args : List Text) : List Text := args.filter fun w => w.head? ≠ some '-' || w = ['-']

/-- Run a line script. -/
def runScript (args : List Text) (content : Text) : Outcome :=
  if args.contains "-i".toList then
    match operands args with
    | [script] =>
      match LineScript.parse? script with
      | some commands => .wrote (.text (LineScript.run commands content))
      | none => .failed
    | _ => .failed
  else .failed

/-- Copy a file. -/
def runCopy (fs : FileSystem) (args : List Text) : Outcome :=
  match operands args with
  | [source] =>
    match fs.lookup source with
    | .ok (_, .file content _) => .wrote content
    | _ => .failed
  | _ => .failed

/-- Cut a content to a number of bytes or fill it up with NUL. -/
def resize (size : Nat) (content : Text) : Octets :=
  let bytes := (Octets.text content).bytes
  .ofBytes (bytes.take size ++ List.replicate (size - bytes.length) 0)

/-- Set the size of a content. -/
def runTruncate (args : List Text) (content : Text) : Outcome :=
  match args with
  | [option, size] =>
    if option = "-s".toList ∧ size ≠ [] ∧ size.all Char.isDigit then
      .wrote (resize (size.foldl (fun n c => n * 10 + (c.toNat - '0'.toNat)) 0) content)
    else .failed
  | _ => .failed

/-- Run a program on a file with the given content. -/
def runProgram (fs : FileSystem) (program : Text) (args : List Text) (content : Text) : Outcome :=
  match String.ofList program with
  | "true" => .wrote (.text content)
  | "false" => .failed
  | "sed" => runScript args content
  | "cp" => runCopy fs args
  | "truncate" => runTruncate args content
  | "rm" => .removed
  | _ => .missing

/-- Edit a buffer with a command. -/
def edit (fs : FileSystem) (editor : Text) (buffer : Text) : Except Error Text :=
  match Text.words editor with
  | [] => .error (.editorFailed editor "editor command is empty".toList)
  | program :: args =>
    match runProgram fs program args buffer with
    | .missing => .error (.editorFailed editor IoError.notFound.message)
    | .failed => .error (.editorFailed editor "exited with exit status: 1".toList)
    | .wrote (.text t) => .ok t
    | .wrote (.binary ..) => .error (.io .invalidData)
    | .removed => .error (.io .notFound)

end Editor

/-- A user who edits each buffer with an editor and never goes on. -/
def Prompt.editor (fs : FileSystem) (editor : Text) : Prompt where
  turns := [⟨Editor.edit fs editor, .ok false⟩]
  exhausted := .cancelled

end Scaffold
