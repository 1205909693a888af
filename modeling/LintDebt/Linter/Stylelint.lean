import LintDebt.Json.Writer
import LintDebt.Linter.Basic
import LintDebt.Linter.Reports

/-! # Running stylelint

The linter is a program. It gets its configuration in a file of its own and the directory that
relative names in it are seen from, and it is told to print JSON. Whoever starts the program is a
parameter: a `Launcher` sees the command and the tree. -/

namespace LintDebt.Stylelint

/-- A program start. The configuration is the text of the configuration file. -/
structure Command where
  program : List String
  config : String
  baseDir : String
  files : List String
  workDir : Option String
  deriving DecidableEq, Repr

/-- The words of the command line when the configuration is in the file at `configPath`. -/
def Command.words (c : Command) (configPath : String) : List String :=
  c.program ++
    ["--config", configPath, "--config-basedir", c.baseDir, "--formatter", "json",
      "--allow-empty-input"] ++ c.files

structure Output where
  stdout : String
  stderr : String
  code : Int
  deriving DecidableEq, Repr

inductive LaunchError where
  | noProgram
  | failed (f : Failure)
  deriving DecidableEq, Repr

abbrev Launcher (σ : Type) := Command → Job σ (Except LaunchError Output)

def defaultProgram : List String := ["npx", "stylelint"]

/-- The directory for relative names in the configuration. -/
def baseDirectory (t : FileTree) (workDir : Option String) : String :=
  (t.absolute (.parse (workDir.getD ""))).text

/-- Reports on at least one file. -/
def run (launch : Launcher σ) (program : List String) (workDir : Option String)
    (config : Json.Fields) (files : List String) : Job σ (List Report) := do
  let shown := " ".intercalate program
  Job.note .debug .linter s!"Running {shown} on {files.length} file(s)"
  let text := (Json.object config).write Json.compact
  let baseDir := baseDirectory (← Job.tree) workDir
  match ← launch ⟨program, text, baseDir, files, workDir⟩ with
  | .ok output => Job.ofExcept (Reports.read output.stdout output.stderr output.code)
  | .error .noProgram => throw (.tool (.noLinter (program.headD "")))
  | .error (.failed f) => throw f

/-- The linter that a program is. An empty command means the default one. -/
def linter (launch : Launcher σ) (command : List String) (workDir : Option String) : Linter σ where
  lint config files :=
    if files.isEmpty then pure []
    else run launch (if command.isEmpty then defaultProgram else command) workDir config files

end LintDebt.Stylelint
