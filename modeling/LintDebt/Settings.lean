import LintDebt.IgnoreList
import LintDebt.Suppression.Comment
import LintDebt.Toml.Reader

/-! # Settings

What a project may set about the tool: where its ignore list and its lint configuration are, how a
line of the list becomes a pattern, how the linter is started, and the style of comments. Everything
has a default, and a settings file that is not there means all of them.

Of the failures on the way only two are the tool's own: a file that is not TOML, and one of the
wrong shape. -/

namespace LintDebt

structure Settings where
  ignoreList : String
  lintConfig : String
  patterns : PatternRule
  command : List String
  style : Suppression.Style
  deriving DecidableEq, Repr

namespace Settings

def standard : Settings :=
  ⟨".stylelintignore", ".stylelintrc.json", .standard, ["npx", "stylelint"], .block⟩

open Schema

def decodePaths : Decoder (String × String) := model "Paths" fun fields =>
  Prod.mk
    <$> field fields "manifest" string standard.ignoreList
    <*> field fields "lint_config" string standard.lintConfig

def decodePatterns : Decoder PatternRule := model "Patterns" fun fields =>
  PatternRule.mk
    <$> field fields "file_suffix" string standard.patterns.fileSuffix
    <*> field fields "directory_glob" string standard.patterns.directoryGlob

def decodeCommand : Decoder (List String) := model "Engine" fun fields =>
  field fields "command" (list string) standard.command

def decodeStyle : Decoder Suppression.Style := model "Suppression" fun fields =>
  field fields "style" (oneOf Suppression.Style.words) standard.style

def decode : Decoder Settings := model "Settings" fun fields =>
  (fun (paths : String × String) patterns command style =>
      ⟨paths.1, paths.2, patterns, command, style⟩)
    <$> field fields "paths" decodePaths (standard.ignoreList, standard.lintConfig)
    <*> field fields "manifest" decodePatterns standard.patterns
    <*> field fields "engine" decodeCommand standard.command
    <*> field fields "suppression" decodeStyle standard.style

/-- Reads settings from the text of a settings file. -/
def ofToml (path : String) (text : List Char) : Except Failure Settings :=
  match Toml.parse (String.ofList text) with
  | .error .malformed => .error (.tool (.badSettings .malformed path))
  | .error (.tooManyDigits n) => .error (.fault (.tooManyDigits n))
  | .error .tooDeep => .error (.fault (.tooDeep none))
  | .ok table =>
    ((decode (Toml.toJson (.table table))).toExcept "Settings").mapError fun e =>
      .tool (.badSettings (.invalid e) path)

def load (t : FileTree) (p : Path) : Except Failure Settings := do
  if !(← liftOs (t.existsAt p.text)) then return standard
  let text ← liftFault (TextFile.decode (← liftOs (t.read p.text)))
  ofToml p.text (Text.normalize text)

end Settings

/-- Reads the lint configuration, which has to be a JSON object. What is wrong with its content is
told with the path as it was given. -/
def LintConfig.load (t : FileTree) (path : String) : Except Failure Json.Fields := do
  let text ← TextFile.read t (.parse path)
  match Json.parse (String.ofList text) with
  | .ok (.object fields) => .ok fields
  | .ok _ => .error (.tool (.lintConfigNotObject path))
  | .error (.malformed e) => .error (.tool (.badLintConfig e path))
  | .error (.tooManyDigits n) => .error (.fault (.tooManyDigits n))
  | .error (.tooDeep kind) => .error (.fault (.tooDeep (some kind)))

end LintDebt
