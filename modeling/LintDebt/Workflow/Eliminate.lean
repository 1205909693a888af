import LintDebt.Suppression.Page
import LintDebt.Workflow.Stage

/-! # Eliminating the ignore list

Every failing file that the list names gets suppression comments of its own, and the list is emptied
if that worked for all of them. A file that cannot be annotated is a failure of the run, but not its
end: the other files still get their comments, and the list stays. -/

namespace LintDebt.Workflow

open Suppression

/-- Writes a text into a file. The file is emptied before the text is looked at, so it is left empty
if no octets stand for the text. -/
def writeText (p : Path) (text : Text.Units) : Job σ Unit := do
  match Utf8.encodeUnits text with
  | .ok octets => Job.changeTree fun t => TextFile.replace t p octets
  | .error run =>
    Job.changeTree fun t => TextFile.replace t p []
    throw (.fault (.unencodable run))

/-- Writes the comments of a plan into a file, and counts the lines added. Without groups the file
is not even read. -/
def annotate (p : Path) (plan : Plan) (style : Style) : Job σ Int := do
  if plan.isEmpty then return 0
  let lines ← Job.ofExcept (TextFile.pieces (← Job.tree) p)
  let updated ← Job.ofExcept (liftFault (plan.apply style (lines.map Text.unitsOf)))
  writeText p (Text.unlines updated)
  let added : Int := (updated.length : Int) - lines.length
  Job.note .info .suppressions s!"Added {added} suppression comment(s) to {p}"
  return added

def annotateReport (base : Path) (style : Style) (o : Outcome) (r : Report) : Job σ Outcome := do
  let p ← Job.ofExcept (liftFault (sourcePath (← Job.tree) base r.source))
  match ← (annotate p (.ofViolations r.warnings) style).observe with
  | .ok _ => return { o with filesProcessed := o.filesProcessed + 1 }
  | .error (.tool e) => do
    Job.note .error .workflows s!"Error: adding comments to {p} - {e.message}"
    return o.addFailure e.message
  | .error f => throw f

/-- Annotates the files that fail, one after the other. -/
def annotateAll (base : Path) (style : Style) (o : Outcome) (reports : List Report) :
    Job σ Outcome :=
  (reports.filter Report.errored).foldlM (annotateReport base style) o

/-- What has to be read before anything is changed: the lint configuration, the files to annotate,
and the reports on them. -/
def survey (l : Linter σ) (s : Settings) (base : Path) :
    Job σ (Json.Fields × List Path × List Report) := do
  let config ← readConfig s base
  let m ← readList s base
  let files ← Job.ofTraced (Blanket.filter (← Job.tree) m.files)
  let reports ← Query.violations l config files (listPath s base)
  return (config, files, reports)

/-- Counts the errors that are left; that this fails does not undo what was done. -/
def recount (l : Linter σ) (config : Json.Fields) (files : List Path) (list : Path) (o : Outcome) :
    Job σ Outcome := do
  match ← (Query.violations l config files list).observe with
  | .ok after => return { o with errorsAfter := some (countErrors after) }
  | .error (.tool e) => do
    Job.note .error .workflows s!"Error: counting remaining errors - {e.message}"
    return o.addFailure e.message
  | .error f => throw f

/-- Moves the suppressions from the ignore list into the files. -/
def eliminate (l : Linter σ) (s : Settings) (base : Path) (style : Style) : Job σ Outcome :=
  let list := listPath s base
  let o := Outcome.start "eliminate"
  stage o s!"reading {list}" (survey l s base) fun (config, files, reports) => do
  let o := { o with errorsBefore := some (countErrors reports) }
  let o ← annotateAll base style o reports
  if o.failures.isEmpty then
    stage o s!"truncating {list}" (writeList list []) fun _ => recount l config files list o
  else
    Job.note .warning .workflows
      s!"Keeping {list}, {o.failures.length} file(s) could not be annotated"
    recount l config files list o

end LintDebt.Workflow
