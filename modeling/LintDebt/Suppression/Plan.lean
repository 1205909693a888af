import LintDebt.Suppression.Comment
import LintDebt.Violation

/-! # Suppression plans

A plan groups the errors of a file by the range of lines they are on. The groups are in the order of
their first lines, those that start together in the order of the report, and each has its rules once
in the order of the report. Warnings need no suppression. -/

namespace LintDebt.Suppression

structure Group where
  start : Int
  stop : Int
  rules : List Text.Units
  deriving DecidableEq, Repr

abbrev Plan := List Group

/-- The range that an error is suppressed on. A last line of zero counts as unknown. -/
def range (v : Violation) : Int × Int :=
  (v.line, if v.endLine = 0 then v.line else v.endLine)

/-- The group of the errors on one range. -/
def groupOf (errors : List Violation) (r : Int × Int) : Group :=
  ⟨r.1, r.2, ((errors.filter (range · = r)).map Violation.rule).eraseDups⟩

def Plan.ofViolations (violations : List Violation) : Plan :=
  let errors := violations.filter (·.severity = .error)
  let groups := ((errors.map range).eraseDups).map (groupOf errors)
  groups.mergeSort fun a b => a.start ≤ b.start

/-- The rules of the groups that start on a line. -/
def Plan.rulesAt (plan : Plan) (start : Int) : List Text.Units :=
  ((plan.filter (·.start = start)).flatMap Group.rules).eraseDups

/-- The lines on which groups start, each with the rules of all of them. -/
def Plan.byStart (plan : Plan) : List (Int × List Text.Units) :=
  ((plan.map Group.start).eraseDups).map fun start => (start, plan.rulesAt start)

end LintDebt.Suppression
