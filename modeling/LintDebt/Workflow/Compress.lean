import LintDebt.Workflow.Stage

/-! # Compressing the ignore list

Each pattern's files are linted on their own, and the list is written anew with the patterns that
still have a failing file. Its comments and blank lines stay. Then the files that remain are linted
once more, for the count. -/

namespace LintDebt.Workflow

/-- Sets the report on a file; a file that is there keeps its place. -/
def putReport (reports : List (Path × Report)) (p : Path) (r : Report) : List (Path × Report) :=
  if reports.any (·.1 == p) then reports.map fun e => if e.1 == p then (p, r) else e
  else reports ++ [(p, r)]

/-- What is known after some of the patterns: the ones kept, and the last report on each file. -/
structure Examined where
  outcome : Outcome
  kept : IgnoreList
  reports : List (Path × Report)

/-- What the linter says about the files of one pattern. -/
structure Verdict where
  reports : List (Path × Report)
  failing : List Path

/-- Asks about the files of one pattern. -/
def judge (l : Linter σ) (s : Settings) (base : Path) (config : Json.Fields)
    (e : IgnoreList.Entry) : Job σ Verdict := do
  let reports ← Query.violations l config e.files (listPath s base)
  let t ← Job.tree
  let located ← Job.ofExcept <| liftFault <| reports.mapM fun r => do
    return (← sourcePath t base r.source, r)
  let errored ← Job.ofExcept (liftFault (erroredSources t base reports))
  return ⟨located, e.files.filter (· ∈ errored)⟩

def Examined.add (x : Examined) (e : IgnoreList.Entry) (v : Verdict) : Examined where
  outcome := { x.outcome with filesProcessed := x.outcome.filesProcessed + e.files.length }
  kept := if v.failing.isEmpty then x.kept else x.kept.put ⟨e.pattern, v.failing⟩
  reports := v.reports.foldl (fun reports (p, r) => putReport reports p r) x.reports

def examine (l : Linter σ) (s : Settings) (base : Path) (config : Json.Fields)
    (doing : String) (next : Examined → Job σ Outcome) :
    Examined → List IgnoreList.Entry → Job σ Outcome
  | x, [] => next x
  | x, e :: rest =>
    stage x.outcome doing (judge l s base config e) fun v => do
      if v.failing.isEmpty then
        Job.note .info .workflows
          s!"Dropping {Text.quoted e.pattern}, its files no longer fail linting"
      examine l s base config doing next (x.add e v) rest

/-- Writes the ignore list anew with the patterns whose files still fail. -/
def compress (l : Linter σ) (s : Settings) (base : Path) : Job σ Outcome :=
  let list := listPath s base
  let doing := s!"compressing {list}"
  let o := Outcome.start "compress"
  stage o doing (measure list) fun stats =>
  let o := { o with statsBefore := some stats.counts }
  stage o doing (readConfig s base) fun config =>
  stage o doing (do Job.ofExcept (TextFile.lines (← Job.tree) list)) fun lines =>
  stage o doing (readList s base) fun m =>
  stage o doing (do Job.ofTraced (m.withoutCovered (← Job.tree))) fun m =>
  examine l s base config doing (fun x =>
    stage x.outcome doing (writeList list (x.kept.renderOver lines)) fun _ =>
    let o := { x.outcome with
      entriesKept := some x.kept.length
      errorsBefore := some (countErrors (x.reports.map Prod.snd)) }
    stage o doing (Query.violations l config x.kept.files list) fun remaining =>
    let o := { o with errorsAfter := some (countErrors remaining) }
    stage o doing (measure list) fun stats =>
    return { o with statsAfter := some stats.counts }) ⟨o, [], []⟩ m

end LintDebt.Workflow
