import LintDebt.Fault

/-! # The tool's own errors

A failure that the tool foresees becomes one of these, each with the path it is about. They come in
five kinds. The message ends with the path unless that is unknown or empty. A `Failure` is such an
error or a fault that nothing has turned into one. -/

namespace LintDebt

namespace ToolError

inductive Kind where
  | general
  | notFound
  | configParse
  | externalTool
  | fileAccess
  deriving DecidableEq, Repr

end ToolError

/-- What is wrong with a settings file. -/
inductive SettingsFault where
  | malformed
  | invalid (e : Schema.Mismatch)
  deriving DecidableEq, Repr

inductive ToolError where
  | missing (path : String)
  | unmeasurable (cause : Fault) (path : String)
  | unreadable (cause : Fault) (path : String)
  | unwritable (cause : Fault) (path : String)
  | unmovable (cause : Fault) (source target : String)
  | badSettings (cause : SettingsFault) (path : String)
  | badLintConfig (cause : Json.SyntaxError) (path : String)
  | lintConfigNotObject (path : String)
  | noLinter (program : String)
  | noReport (detail : String)
  | linterFailed (cause : Fault)
  | other (kind : ToolError.Kind) (text : String) (path : Option String)
  deriving DecidableEq, Repr

namespace ToolError

def kind : ToolError → Kind
  | missing _ => .notFound
  | unmeasurable .. | unreadable .. | unwritable .. | unmovable .. => .fileAccess
  | badSettings .. | badLintConfig .. | lintConfigNotObject _ => .configParse
  | noLinter _ | noReport _ | linterFailed _ => .externalTool
  | other kind _ _ => kind

def path? : ToolError → Option String
  | missing path | unmeasurable _ path | unreadable _ path | unwritable _ path
  | unmovable _ path _ | badSettings _ path | badLintConfig _ path | lintConfigNotObject path
  | noLinter path => some path
  | noReport _ | linterFailed _ => none
  | other _ _ path => path

/-- What happened, without the path. The details of a settings file are left out. -/
def text : ToolError → String
  | missing _ => "There is no file on this path"
  | unmeasurable cause _ => s!"Cannot stat file ({cause.message})"
  | unreadable cause _ => s!"Cannot read file ({cause.message})"
  | unwritable cause _ => s!"Cannot write file ({cause.message})"
  | unmovable cause _ target => s!"Cannot rename file to {target} ({cause.message})"
  | badSettings _ _ => "Invalid SLIM config (...)"
  | badLintConfig cause _ => s!"Error reading stylelint config file ({cause.message})"
  | lintConfigNotObject _ => "Stylelint config must be a JSON object"
  | noLinter _ => "stylelint binary not found"
  | noReport detail => s!"Stylelint execution failed: {detail}"
  | linterFailed cause => s!"Lint engine failed ({cause.message})"
  | other _ text _ => text

def message (e : ToolError) : String :=
  match e.path? with
  | none | some "" => e.text
  | some path => s!"{e.text} - {path}"

end ToolError

inductive Failure where
  | tool (e : ToolError)
  | fault (f : Fault)
  deriving DecidableEq, Repr

def Failure.message : Failure → String
  | tool e => e.message
  | fault f => f.message

/-- A computation whose only failures are faults. -/
def liftFault (x : Except Fault α) : Except Failure α := x.mapError .fault

/-- A question to the system, or a change, whose refusal nothing foresees. -/
def liftOs (x : Except OsError α) : Except Failure α := x.mapError fun e => .fault (.os e)

end LintDebt
