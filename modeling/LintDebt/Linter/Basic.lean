import LintDebt.Job
import LintDebt.Violation

/-! # Linters

A linter takes a configuration and a list of files and reports on them. It may look at the tree,
change it, remember what it was asked before, and fail in any way. -/

namespace LintDebt

structure Linter (σ : Type) where
  lint : Json.Fields → (files : List String) → Job σ (List Report)

/-- In a path, U+DC80 to U+DCFF stand for octets that are no text. -/
def isOctetUnit (u : UInt16) : Bool := 0xdc80 ≤ u && u ≤ 0xdcff

/-- The surrogates in a source that no path can hold, with their place in the path that is looked at
when the resolution gets there: what the directories before them resolved to, and their name. -/
def unspelled? (t : FileTree) (base : Path) (source : Text.Units) : Option Text.LoneRun :=
  let points := Text.points source
  (Text.loneRun? isOctetUnit 0 points).map fun run =>
    let before := (points.take run.position).map fun p => p.char?.getD '\ufffd'
    let name := (before.reverse.takeWhile (· ≠ '/')).length
    let directory := base.join (.parse (String.ofList (before.take (before.length - name))))
    let reached := (t.ascend directory).path
    let shift := match reached.root, reached.names with
      | .relative, [] => 0
      | _, [] => 1
      | _, _ => reached.text.length + 1
    { run with position := shift + name }

/-- Where the source of a report is. A relative one is seen from the base directory. -/
def sourcePath (t : FileTree) (base : Path) (source : Text.Units) : Except Fault Path :=
  match unspelled? t base source with
  | some run => .error (.unencodable run)
  | none =>
    (t.resolve (base.join (.parse (Json.unitText source)))).mapError Fault.ofResolve

/-- Where the files that fail are. -/
def erroredSources (t : FileTree) (base : Path) (reports : List Report) :
    Except Fault (List Path) :=
  (reports.filter Report.errored).mapM fun r => sourcePath t base r.source

end LintDebt
