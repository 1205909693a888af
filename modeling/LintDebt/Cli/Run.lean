import LintDebt.Cli.Arguments
import LintDebt.Linter.Stylelint
import LintDebt.Workflow.Compress
import LintDebt.Workflow.Eliminate

/-! # The command line tool

A run reads the settings, carries out its command, prints a summary, and writes the outcome to a
file if it was asked to. Exit code 2 stands for a command line or settings that cannot be used, and
for an aborted run; 1 for a run that worked in part. A failure that nothing foresees ends the run
where it is, after what was printed up to then. -/

namespace LintDebt.Cli

/-- What a run printed, what it logged, and how it ended. -/
structure Transcript where
  stdout : String
  log : List Log.Record
  ending : Except Failure Nat

/-- A run so far: what was printed, and the exit code if it came to its end. -/
structure Progress where
  printed : List String
  ending : Except Failure Nat

def printLines (lines : List String) : String :=
  String.join (lines.map fun line => line ++ "\n")

def outcomeText (o : Outcome) : String := (Json.object o.toFields).write Json.indented

/-- A change of the tree that only the system can refuse. -/
def changeFiles (f : FileTree → Except OsError FileTree) : Job σ Unit :=
  Job.changeTree fun t => (f t).mapError fun e => .fault (.os e)

/-- The most directories that are made for one file. Every one takes a nested call, so the limit depends
on how deep the caller is. -/
def directoryLimit : Nat := 980

/-- Creates a directory and the missing ones above it, `depth` at most, unless it is there already.
Nothing is created if more are missing; those that were created stay if one of them is refused. -/
def makeDirectories (p : Path) : (depth : Nat) → Job σ Unit
  | 0 => throw (.fault (.tooDeep none))
  | depth + 1 => do
    match ← (changeFiles (·.ensureDirectory p.text)).observe with
    | .error (.fault (.os (.refused .noEntry _ _))) => do
      makeDirectories p.parent depth
      changeFiles (·.ensureDirectory p.text)
    | result => Job.ofExcept result

def writeBelowParents (p : Path) (text : String) : Job σ Unit := do
  makeDirectories p.parent directoryLimit
  changeFiles (·.write p.text (Utf8.encode text.toList))

def announcement (c : Command) (s : Settings) : String :=
  match c with
  | .compress => s!"Start compress {s.ignoreList} script..."
  | .eliminate => s!"Start delete {s.ignoreList} script..."

def pathOf (value : Option String) : Except Failure Path :=
  match value with
  | some path => .ok (.parse path)
  | none => .error (.fault .noPath)

def carryOut (launch : Stylelint.Launcher σ) (c : Command) (a : Arguments) (base : Path)
    (s : Settings) : Job σ Outcome :=
  let l := Stylelint.linter launch s.command (some base.text)
  match c with
  | .compress => Workflow.compress l s base
  | .eliminate => Workflow.eliminate l s base (if a.nextLine then .nextLine else s.style)

def closingLines (o : Outcome) : Except Fault (List String) := do
  return (← o.summary) ++ if o.status = .ok then ["Success"] else []

/-- Writes the outcome where it was asked for. -/
def exportOutcome (o : Outcome) : Option String → Job σ Unit
  | none | some "" => pure ()
  | some destination => writeBelowParents (Path.parse destination) (outcomeText o)

/-- A run with usable settings. -/
def runWith (launch : Stylelint.Launcher σ) (c : Command) (a : Arguments) (base : Path)
    (s : Settings) : Job σ Progress := do
  let first := announcement c s
  match ← (carryOut launch c a base s).observe with
  | .error f => return ⟨[first], .error f⟩
  | .ok o =>
    match closingLines o with
    | .error f => return ⟨[first], .error (.fault f)⟩
    | .ok closing =>
      match ← (exportOutcome o a.json).observe with
      | .error f => return ⟨first :: closing, .error f⟩
      | .ok () => return ⟨first :: closing, .ok o.exitCode⟩

/-- A run with a usable command line. -/
def runCommand (launch : Stylelint.Launcher σ) (c : Command) (a : Arguments) : Job σ Progress := do
  match (pathOf a.config).bind (Settings.load (← Job.tree)) with
  | .ok s => match pathOf a.baseDir with
    | .ok base => runWith launch c a base s
    | .error f => return ⟨[], .error f⟩
  | .error (.tool e) => do
    Job.note .error .commandLine e.message
    return ⟨[], .ok 2⟩
  | .error f => return ⟨[], .error f⟩

/-- The records that are shown; the finest ones only on demand. -/
def shownRecords (verbose : Bool) (records : List Log.Record) : List Log.Record :=
  records.filter fun r => verbose || Log.Level.info.number ≤ r.level.number

/-- Runs a command line in a world. -/
def run (launch : Stylelint.Launcher σ) (words : List String) (w : World σ) :
    Transcript × World σ :=
  match Request.parse words with
  | .unusable => (⟨"", [], .ok 2⟩, w)
  | .help => (⟨"", [], .ok 0⟩, w)
  | .run c a =>
    let (result, after) := (runCommand launch c a).run.run { w with log := [] }
    let progress := match result with
      | .ok p => p
      | .error f => ⟨[], .error f⟩
    (⟨printLines progress.printed, shownRecords a.verbose after.log, progress.ending⟩,
      { after with log := w.log ++ after.log })

end LintDebt.Cli
