import LintDebt.Linter.Basic
import LintDebt.TextFile

/-! # Asking the linter

The linter passes over files that the ignore list names, so the list is moved out of its sight while
it runs, and back afterwards however the run ends. A failure to move it back takes the place of the
run's own result. -/

namespace LintDebt.Query

def hiddenSuffix : String := ".slim-hidden"

/-- Where a file is while it is hidden: beside its own place. -/
def hiddenPath (p : Path) : Except Fault Path :=
  match p.name? with
  | none => .error (.nameless p)
  | some name => .ok { p with names := p.names.dropLast ++ [name ++ hiddenSuffix] }

/-- Runs a job while a file is hidden. If nothing is there, there is nothing to hide. -/
def whileHidden (p : Path) (job : Job σ α) : Job σ α := do
  if !(← Job.ofExcept (liftOs ((← Job.tree).existsAt p.text))) then job
  else
    let hidden ← Job.ofExcept (liftFault (hiddenPath p))
    Job.changeTree fun t => TextFile.rename t p.text hidden.text
    Job.note .debug .query s!"Moved {p} to {hidden} while linting"
    let result ← job.observe
    Job.changeTree fun t => TextFile.rename t hidden.text p.text
    Job.ofExcept result

/-- A fault of the linter becomes an error of the tool's. -/
def blameLinter : Except Failure α → Except Failure α
  | .error (.fault f) => .error (.tool (.linterFailed f))
  | x => x

/-- Lints files with the ignore list hidden. Without files the linter is not asked. -/
def violations (l : Linter σ) (config : Json.Fields) (files : List Path) (list : Path) :
    Job σ (List Report) :=
  if files.isEmpty then pure []
  else whileHidden list do
    let result ← (l.lint config (files.map Path.text)).observe
    Job.ofExcept (blameLinter result)

end LintDebt.Query
