import LintDebt.Fault
import LintDebt.TextFile

/-! # Outcomes

What a run of the tool came to: how far it got, what it counted, and what went wrong. A run is `ok`
as long as nothing has failed, and once it is aborted it stays so. -/

namespace LintDebt

inductive Status where
  | ok
  | partly
  | aborted
  deriving DecidableEq, Repr

def Status.text : Status → String
  | ok => "ok"
  | partly => "partial"
  | aborted => "aborted"

def Status.exitCode : Status → Nat
  | ok => 0
  | partly => 1
  | aborted => 2

/-- Named counts about a file. -/
abbrev Counts := List (String × Int)

def TextFile.Stats.counts (s : TextFile.Stats) : Counts := [("size", s.size), ("length", s.length)]

structure Outcome where
  command : String
  status : Status
  errorsBefore : Option Int
  errorsAfter : Option Int
  filesProcessed : Int
  entriesKept : Option Int
  statsBefore : Option Counts
  statsAfter : Option Counts
  failures : List String
  deriving DecidableEq, Repr

namespace Outcome

/-- The outcome of a run that has not done anything yet. -/
def start (command : String) : Outcome :=
  ⟨command, .ok, none, none, 0, none, none, none, []⟩

def exitCode (o : Outcome) : Nat := o.status.exitCode

def abort (o : Outcome) (message : String) : Outcome :=
  { o with status := .aborted, failures := o.failures ++ [message] }

def addFailure (o : Outcome) (message : String) : Outcome :=
  { o with
    status := if o.status = .ok then .partly else o.status
    failures := o.failures ++ [message] }

open Schema in
/-- Only the command has to be there. -/
def decode : Decoder Outcome := model "Outcome" fun fields =>
  mk
    <$> required fields "command" string
    <*> field fields "status" (oneOf [("ok", .ok), ("partial", .partly), ("aborted", .aborted)]) .ok
    <*> field fields "errors_before" (orNull int) none
    <*> field fields "errors_after" (orNull int) none
    <*> field fields "files_processed" int 0
    <*> field fields "entries_kept" (orNull int) none
    <*> field fields "stats_before" (orNull (dict int)) none
    <*> field fields "stats_after" (orNull (dict int)) none
    <*> field fields "failures" (list string) []

def countsJson (c : Counts) : Json :=
  .object (Json.Fields.ofNamed (c.map fun (name, n) => (name, .int n)))

def orNullJson (f : α → Json) : Option α → Json
  | none => .null
  | some a => f a

/-- All fields, in the order of their declaration. -/
def toFields (o : Outcome) : Json.Fields := Json.Fields.ofNamed
  [("command", .text o.command), ("status", .text o.status.text),
    ("errors_before", orNullJson .int o.errorsBefore),
    ("errors_after", orNullJson .int o.errorsAfter),
    ("files_processed", .int o.filesProcessed),
    ("entries_kept", orNullJson .int o.entriesKept),
    ("stats_before", orNullJson countsJson o.statsBefore),
    ("stats_after", orNullJson countsJson o.statsAfter),
    ("failures", .array (o.failures.map .text))]

/-- A count that has to be there. -/
def count (c : Counts) (name : String) : Except Fault Int :=
  match c.lookup name with
  | some n => .ok n
  | none => .error (.missingKey name)

def statsLines : Option Counts → Except Fault (List String)
  | none | some [] => .ok []
  | some c => do
    let size ← count c "size"
    let length ← count c "length"
    return [s!"Total file size: {size} bytes\nTotal lines in the file: {length}"]

def countLines (time : String) : Option Int → List String
  | none => []
  | some n => [s!"Total errors stylelint {time}: {n}"]

def summary (o : Outcome) : Except Fault (List String) := do
  let before ← statsLines o.statsBefore
  let after ← statsLines o.statsAfter
  return before ++ countLines "previous" o.errorsBefore ++ countLines "current" o.errorsAfter ++
    after ++ o.failures.map fun failure => s!"Error: {failure}"

end Outcome
end LintDebt
