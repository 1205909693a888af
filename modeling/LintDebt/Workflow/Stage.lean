import LintDebt.IgnoreList
import LintDebt.Outcome
import LintDebt.Query
import LintDebt.Settings

/-! # Stages of a workflow

A workflow is a chain of stages. When a stage fails with one of the tool's own errors, the run is
aborted with the outcome it had before that stage; any other failure ends it without an outcome. -/

namespace LintDebt.Workflow

/-- Goes on with the result of a stage, or says what could not be done and aborts. -/
def stage (o : Outcome) (doing : String) (job : Job σ α) (next : α → Job σ Outcome) :
    Job σ Outcome := do
  match ← job.observe with
  | .ok a => next a
  | .error (.tool e) => do
    Job.note .error .workflows s!"Error: {doing} - {e.message}"
    return o.abort e.message
  | .error f => throw f

def listPath (s : Settings) (base : Path) : Path := base.join (.parse s.ignoreList)

def lintConfigPath (s : Settings) (base : Path) : Path := base.join (.parse s.lintConfig)

def readConfig (s : Settings) (base : Path) : Job σ Json.Fields := do
  Job.ofExcept (LintConfig.load (← Job.tree) (lintConfigPath s base).text)

def readList (s : Settings) (base : Path) : Job σ IgnoreList := do
  Job.ofTraced (IgnoreList.read (← Job.tree) (listPath s base) base s.patterns)

def measure (p : Path) : Job σ TextFile.Stats := do
  Job.ofExcept (TextFile.measure (← Job.tree) p)

def writeList (p : Path) (text : List Char) : Job σ Unit :=
  Job.changeTree fun t => TextFile.write t p text

end LintDebt.Workflow
