import LintDebt.Schema

/-! # Violations and reports

What a linter says about a file: the violations it found, each on a range of lines, and whether the
file fails. A violation's last line is never before its first; a missing or smaller one is taken to
be the first line. The texts in a report come from a JSON document, so that they may hold lone
surrogates. -/

namespace LintDebt

inductive Severity where
  | error
  | warning
  deriving DecidableEq, Repr

def Severity.text : Severity → String
  | error => "error"
  | warning => "warning"

structure Violation where
  severity : Severity
  line : Int
  endLine : Int
  rule : Text.Units
  text : Text.Units
  deriving DecidableEq, Repr

structure Report where
  source : Text.Units
  errored : Bool
  warnings : List Violation
  deriving DecidableEq, Repr

namespace Violation

/-- A violation whose last line may be unknown. -/
def make (severity : Severity) (line : Int) (endLine : Option Int) (rule text : Text.Units) :
    Violation :=
  let last := match endLine with
    | some last => if last < line then line else last
    | none => line
  ⟨severity, line, last, rule, text⟩

theorem line_le_endLine_make (severity : Severity) (line : Int) (endLine : Option Int)
    (rule text : Text.Units) :
    (make severity line endLine rule text).line ≤
      (make severity line endLine rule text).endLine := by
  cases endLine with
  | none => simp [make]
  | some last =>
    by_cases h : last < line
    · simp [make, h]
    · simp only [make, h, ↓reduceIte]
      omega

open Schema in
/-- Every field may be left out. The last line has two spellings; `endLine` wins. -/
def decode : Decoder Violation := model "Violation" fun fields =>
  let endKey := if (fields.get? "endLine").isSome then "endLine" else "end_line"
  make
    <$> field fields "severity" (oneOf [("error", .error), ("warning", .warning)]) .error
    <*> field fields "line" int 1
    <*> field fields endKey (orNull int) none
    <*> field fields "rule" units []
    <*> field fields "text" units []

end Violation

open Schema in
/-- Only the source has to be there. -/
def Report.decode : Decoder Report := model "FileReport" fun fields =>
  Report.mk
    <$> required fields "source" units
    <*> field fields "errored" bool false
    <*> field fields "warnings" (list Violation.decode) []

/-- The number of violations of error severity. -/
def countErrors (reports : List Report) : Nat :=
  (reports.flatMap Report.warnings).countP (·.severity = .error)

end LintDebt
