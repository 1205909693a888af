import LintDebt.Cli.Run

/-! # Rehearsals

A rehearsal carries out a command line on a project that is described in full: its files as texts,
and what the linter answers each time it is started. It tells what the run printed and logged, how
it ended, and what the files are after it. Nothing outside the description is read or changed. -/

namespace LintDebt.Cli

structure Rehearsal where
  files : List (String × String)
  answers : List Stylelint.Output
  deriving DecidableEq, Repr

namespace Rehearsal

open Schema in
def decodeAnswer : Decoder Stylelint.Output := model "Answer" fun fields =>
  Stylelint.Output.mk
    <$> field fields "stdout" string ""
    <*> field fields "stderr" string ""
    <*> field fields "code" int 0

open Schema in
/-- A description may leave out the files, the answers, or both. -/
def decode : Decoder Rehearsal := model "Rehearsal" fun fields =>
  mk
    <$> field fields "files" (dict string) []
    <*> field fields "answers" (list decodeAnswer) []

def home : Location := ["project"]

/-- The tree with one more file. A file that cannot be written is left out. -/
def addFile (t : FileTree) (file : String × String) : FileTree :=
  let write : Job Unit Unit := writeBelowParents (.parse file.1) file.2
  (write.run.run ⟨t, (), []⟩).2.tree

def tree (r : Rehearsal) : FileTree :=
  r.files.foldl addFile (FileTree.put ⟨∅, home⟩ home .directory)

/-- Every start takes the next answer, and the last one stays when there are no more. Without any
answer there is no linter. -/
def launcher (r : Rehearsal) : Stylelint.Launcher Nat := fun _ => do
  let w ← get
  set { w with state := w.state + 1 }
  match r.answers[w.state]? <|> r.answers.getLast? with
  | some output => return .ok output
  | none => return .error .noProgram

def recordJson (r : Log.Record) : Json := .object <| Json.Fields.ofNamed
  [("level", .text r.level.name), ("source", .text r.source.name), ("message", .text r.message)]

def filesJson (t : FileTree) : Json :=
  .object <| Json.Fields.ofNamed <| (t.below home).filterMap fun (l, n) => match n with
    | .file octets => match Utf8.decode octets with
      | .ok s => some (String.ofList (joinSlash l), .text (String.ofList s))
      | .error _ => none
    | _ => none

/-- The exit code of a run; one that ends with a failure that nothing foresees has code 1. -/
def exitCode (x : Transcript) : Nat :=
  match x.ending with
  | .ok code => code
  | .error _ => 1

def resultJson (x : Transcript) (t : FileTree) : Json := .object <| Json.Fields.ofNamed
  [("stdout", .text x.stdout), ("log", .array (x.log.map recordJson)),
    ("exit", .int (exitCode x)),
    ("failure", match x.ending with
      | .ok _ => .null
      | .error f => .text f.message),
    ("files", filesJson t)]

/-- Carries out a command line: the result as a JSON document, and the exit code. -/
def play (r : Rehearsal) (words : List String) : String × Nat :=
  let (x, w) := run r.launcher words ⟨r.tree, 0, []⟩
  ((resultJson x w.tree).write Json.indented, exitCode x)

/-- The same for a description that is still a text. -/
def playText (description : String) (words : List String) : Except String (String × Nat) :=
  match Json.parse description with
  | .error (.malformed e) => .error e.message
  | .error (.tooManyDigits n) => .error (Fault.tooManyDigits n).message
  | .error (.tooDeep kind) => .error (Fault.tooDeep (some kind)).message
  | .ok value => match (decode value).toExcept "Rehearsal" with
    | .error e => .error e.message
    | .ok r => .ok (r.play words)

end Rehearsal
end LintDebt.Cli
